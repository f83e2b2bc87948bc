import LayerPick.Oci.Document
import LayerPick.Text.Quoted

/-!
# Offered platforms in trace lines

How a platform that is passed over is shown in a trace line: registered names of architectures and
operating systems by their short form, others as quoted text.
-/
namespace LayerPick.Oci

/-- Registered architectures and their short forms. -/
def architectureForms : List (String × String) :=
  [("386", "i386"), ("amd64", "Amd64"), ("amd64p32", "Amd64p32"), ("arm", "ARM"),
    ("armbe", "ARMbe"), ("arm64", "ARM64"), ("arm64be", "ARM64be"), ("loong64", "LoongArch64"),
    ("mips", "Mips"), ("mipsle", "Mipsle"), ("mips64", "Mips64"), ("mips64le", "Mips64le"),
    ("mips64p32", "Mips64p32"), ("mips64p32le", "Mips64p32le"), ("ppc", "PowerPC"),
    ("ppc64", "PowerPC64"), ("ppc64le", "PowerPC64le"), ("riscv", "RISCV"),
    ("riscv64", "RISCV64"), ("s390", "S390"), ("s390x", "S390x"), ("sparc", "SPARC"),
    ("sparc64", "SPARC64")]

/-- Registered operating systems and their short forms. -/
def osForms : List (String × String) :=
  [("aix", "AIX"), ("android", "Android"), ("darwin", "Darwin"), ("dragonfly", "DragonFlyBSD"),
    ("freebsd", "FreeBSD"), ("hurd", "Hurd"), ("illumos", "Illumos"), ("ios", "iOS"),
    ("js", "Js"), ("linux", "Linux"), ("nacl", "Nacl"), ("netbsd", "NetBSD"),
    ("openbsd", "OpenBSD"), ("plan9", "Plan9"), ("solaris", "Solaris"), ("windows", "Windows"),
    ("zos", "zOS")]

/-- The short form of a registered name, or the quoted name. -/
def form (forms : List (String × String)) (name : String) : String :=
  (forms.lookup name).getD ("Other(" ++ Quoted.text name ++ ")")

def optionList : Option (List String) → String
  | none => "None"
  | some xs => "Some(" ++ Quoted.list xs ++ ")"

/-- An offered platform in a trace line. -/
def Offer.shown (o : Offer) : String :=
  "Platform \x7b architecture: " ++ form architectureForms o.architecture ++
    ", os: " ++ form osForms o.os ++
    ", os_version: " ++ Quoted.option o.osVersion ++
    ", os_features: " ++ optionList o.osFeatures ++
    ", variant: " ++ Quoted.option o.variant ++
    ", features: " ++ optionList o.features ++ " \x7d"

end LayerPick.Oci
