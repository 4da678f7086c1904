import LicenseHeader.Proofs.Setup

/-! The exit status of a run and what it writes when it is to be quiet, in terms of the files it
starts from. -/
namespace LicenseHeader.CommandLine

open Scan (Legible lacks)

section
variable {env : Environment} {a : Arguments} {fs : FileSystem} {arguments : List String}

def Prepared.lacking (s : Prepared env a fs) : List Path :=
  s.files.filter (lacks s.registry s.license fs)

end

end LicenseHeader.CommandLine
