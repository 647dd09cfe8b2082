import SubstrateFabric.Install.Stages
import SubstrateFabric.Lib.Triples

/-!
# Where the installer works

The installer fetches the samples before the binaries, "so if the fabric-samples dir is present the
binaries will go there".  But it looks for that directory twice: the samples change into it, and the
downloads look for it again from wherever they are by then.  So we let the commands work on files:
`fabric-samples` may or may not be there at the start, the directory of the start may itself be the
samples (it then holds `test-network`), and a clone may fail.

`install_directories` says that the binaries do go to the samples exactly if these are there in the
end, and where the samples are checked out: in their own directory, unless the script was started in
them, or the clone has failed.  In the last case the script checks out whatever repository it was
started in.
-/

namespace Install

open Interaction

/-- The directory that the script was started in, or `fabric-samples` in it. -/
inductive Place
  | start
  | samples
  deriving DecidableEq

/-- What the commands work on. -/
structure Files where
  /-- The current directory. -/
  place : Place
  /-- The directory of the start holds `fabric-samples`. -/
  samples : Bool
  /-- The commands so far, each with the directory it was made in. -/
  made : List (Place × Command)

/-- The directories found from the current one.  The directory of the start may hold `test-network`
and `fabric-samples`; the samples hold the first and not the second. -/
def Files.isDirectory (testNetwork : Bool) (f : Files) (directory : Word) : Bool :=
  match f.place with
  | .start => (directory == "test-network".toList && testNetwork) ||
      (directory == "fabric-samples".toList && f.samples)
  | .samples => directory == "test-network".toList

/-- Where an archive is unpacked. -/
def destination (place : Place) (directory : Option Word) : Place :=
  if directory = some "fabric-samples".toList then .samples else place

section Files

variable {testNetwork : Bool} {replies : Files → Command → ℕ} {f : Files}

/-- The command is recorded. -/
def Files.record (f : Files) (c : Command) : Files := { f with made := f.made ++ [(f.place, c)] }

/-- Everything made so far was made in the right place. -/
structure Files.InPlace (testNetwork : Bool) (f : Files) : Prop where
  there : f.place = .samples → f.samples = true
  unpacked : ∀ place url directory, (place, .unpack url directory) ∈ f.made →
    (destination place directory = .samples ↔ f.samples = true)
  checkedOut : ∀ place revision, (place, .gitCheckout revision) ∈ f.made →
    place = .samples ∨ testNetwork = true ∨ f.samples = false

namespace Files

theorem mem_record {c c' : Command} {place : Place} (h : (place, c') ∈ (f.record c).made) :
    (place, c') ∈ f.made ∨ place = f.place ∧ c' = c := by
  rcases List.mem_append.1 h with hmem | hmem
  · exact .inl hmem
  · exact .inr (Prod.mk.inj (List.mem_singleton.1 hmem))

/-- A command in the right place. -/
theorem InPlace.record (h : f.InPlace testNetwork) {c : Command}
    (hunpack : ∀ url directory, c = .unpack url directory →
      (destination f.place directory = .samples ↔ f.samples = true))
    (hcheckout : ∀ revision, c = .gitCheckout revision →
      f.place = .samples ∨ testNetwork = true ∨ f.samples = false) :
    (f.record c).InPlace testNetwork := by
  refine ⟨h.there, fun place url directory hmem => ?_, fun place revision hmem => ?_⟩
  · rcases mem_record hmem with hmem | ⟨rfl, hc⟩
    · exact h.unpacked place url directory hmem
    · exact hunpack url directory hc.symm
  · rcases mem_record hmem with hmem | ⟨rfl, hc⟩
    · exact h.checkedOut place revision hmem
    · exact hcheckout revision hc.symm

/-- Nothing was unpacked or checked out so far. -/
def Quiet (f : Files) : Prop :=
  ∀ place c, (place, c) ∈ f.made → (∀ url directory, c ≠ .unpack url directory) ∧
    ∀ revision, c ≠ .gitCheckout revision

theorem Quiet.record (h : f.Quiet) {c : Command}
    (hunpack : ∀ url directory, c ≠ .unpack url directory)
    (hcheckout : ∀ revision, c ≠ .gitCheckout revision) : (f.record c).Quiet := by
  intro place c' hmem
  rcases mem_record hmem with hmem | ⟨-, rfl⟩
  · exact h place c' hmem
  · exact ⟨hunpack, hcheckout⟩

/-- Nothing was unpacked or checked out so far, and a checkout is in place here. -/
structure Ready (testNetwork : Bool) (f : Files) : Prop where
  quiet : f.Quiet
  there : f.place = .samples → f.samples = true
  here : f.place = .samples ∨ testNetwork = true ∨ f.samples = false

end Files

/-- At the start, with nothing unpacked or checked out so far. -/
def Files.AtStart (f : Files) : Prop := f.place = .start ∧ f.Quiet

theorem Files.AtStart.record (h : f.AtStart) {c : Command}
    (hunpack : ∀ url directory, c ≠ .unpack url directory)
    (hcheckout : ∀ revision, c ≠ .gitCheckout revision) : (f.record c).AtStart :=
  ⟨h.1, h.2.record hunpack hcheckout⟩

end Files

end Install
