import LayerPick.Text.Blank
import LayerPick.Text.Numeral
import LayerPick.Text.Quoted
import LayerPick.Path.Components
import LayerPick.Stream.Source
import LayerPick.Stream.Device
import LayerPick.SystemError
import LayerPick.Tar.Pax
import LayerPick.Tar.PathField
import LayerPick.Tar.Reader
import LayerPick.Tar.Writer
import LayerPick.Json.Decode
import LayerPick.Oci.Spelling
import LayerPick.Plugin
import LayerPick.Gzip.Member
import LayerPick.Log.Traced
import LayerPick.FileTree
import LayerPick.Image.Local
import LayerPick.Walk
import LayerPick.Log.Notifier
import LayerPick.Cli.Run
import LayerPick.Main
import LayerPick.Proofs.Overlay
import LayerPick.Proofs.EarlyStop
import LayerPick.Proofs.FailedExtraction
import LayerPick.Proofs.Bookkeeping
import LayerPick.Proofs.FailureKinds
import LayerPick.Proofs.CutImages
import LayerPick.Proofs.FileKinds
import LayerPick.Proofs.GzipTrailers
import LayerPick.Proofs.ReadBack
import LayerPick.Proofs.StoredPaths
import LayerPick.Proofs.UpperLayers
import LayerPick.Proofs.FewerTargets
import LayerPick.Proofs.RoundTrip
import LayerPick.Proofs.PaxGrammar
import LayerPick.Proofs.ManifestSearch
import LayerPick.Proofs.DigestNames
import LayerPick.Proofs.StatedPlatforms
import LayerPick.Proofs.ResolvedLayers
import LayerPick.Proofs.RecutExtraction
import LayerPick.Proofs.StorageForms
import LayerPick.Proofs.EarlyFailures
import LayerPick.Proofs.SpelledRequests
import LayerPick.Proofs.Verbosities
import LayerPick.Proofs.RepeatedExtraction
import LayerPick.Proofs.IndexedContent
import LayerPick.Proofs.ClimbingLinks
import LayerPick.Proofs.LayoutConfinement
import LayerPick.Proofs.GzipDetection
import LayerPick.Proofs.TargetSpellings
import LayerPick.Proofs.EscapingPaths
import LayerPick.Proofs.WrittenManifests
import LayerPick.Proofs.Entrypoints
import LayerPick.Proofs.PlatformNames
