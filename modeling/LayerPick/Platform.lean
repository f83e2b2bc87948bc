import LayerPick.Oci.Document
import LayerPick.Text.Quoted

/-!
# Platforms

A platform is asked for as `os/architecture` or `os/architecture/variant`. It matches what an image
is offered or built for if operating system and architecture are equal, and the variant too when one
is asked for.
-/
namespace LayerPick

structure Platform where
  os : String
  architecture : String
  variant : Option String := none
  deriving Repr, DecidableEq

inductive PlatformError where
  | emptyComponent (s : String)
  | wrongCount (s : String)
  deriving Repr, DecidableEq

def PlatformError.message : PlatformError → String
  | emptyComponent s => "Invalid platform '" ++ s ++ "': empty component"
  | wrongCount s => "Invalid platform '" ++ s ++ "': expected os/arch or os/arch/variant"

namespace Platform

def parse (s : String) : Except PlatformError Platform :=
  let parts := s.toList.splitOn '/'
  if parts.any List.isEmpty then .error (.emptyComponent s)
  else match parts with
    | [os, arch] => .ok ⟨.ofList os, .ofList arch, none⟩
    | [os, arch, variant] => .ok ⟨.ofList os, .ofList arch, some (.ofList variant)⟩
    | _ => .error (.wrongCount s)

def text (p : Platform) : String :=
  p.os ++ "/" ++ p.architecture ++ match p.variant with
    | none => ""
    | some v => "/" ++ v

def matchesParts (p : Platform) (os architecture : String) (variant : Option String) : Bool :=
  p.os == os && p.architecture == architecture && match p.variant with
    | none => true
    | some v => variant == some v

def matchesOffer (p : Platform) (o : Oci.Offer) : Bool :=
  p.matchesParts o.os o.architecture o.variant

/-- Does it match what an image is built for? -/
def matchesConfig (p : Platform) (c : Oci.Config) : Bool :=
  p.matchesParts c.os c.architecture c.variant

/-- A platform that may not have been asked for, in a log line. -/
def shown : Option Platform → String
  | none => "None"
  | some p =>
    "Some(Platform \x7b os: " ++ Quoted.text p.os ++ ", architecture: " ++
      Quoted.text p.architecture ++ ", variant: " ++ Quoted.option p.variant ++ " \x7d)"

end Platform

end LayerPick
