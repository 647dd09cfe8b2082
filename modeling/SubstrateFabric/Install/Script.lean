import SubstrateFabric.Install.Arguments
import SubstrateFabric.Lib.Interaction

/-!
# The installer

`install-fabric.sh` after its command line has been read: it fetches the samples, the binaries and
the container images, in this order and as far as they were asked for.  Everything it does is a
command with an exit status, so the script is a program over commands, and nothing is assumed about
their replies.  Progress messages are not part of the model.

The script does not stop at errors, with one exception: a download that fails ends it, with status
zero.
-/

namespace Install

open Interaction

/-! ### Settings -/

/-- What the script finds: the variables of its environment, empty if they are not set, and the
machine. -/
structure Host where
  /-- `FABRIC_DOCKER_REGISTRY` -/
  registry : Word
  /-- `FABRIC_TAG` -/
  fabricTag : Word
  /-- `CA_TAG` -/
  caTag : Word
  /-- `rc` -/
  rc : Word
  /-- `OS` and `ARCH`, with a hyphen between them -/
  platform : Word
  /-- `uname -m` -/
  march : Word

/-- The values that the functions of the script read. -/
structure Settings where
  version : Word
  caVersion : Word
  registry : Word
  fabricTag : Word
  caTag : Word
  binaryFile : Word
  caBinaryFile : Word
  rc : Word

/-- `${value:-fallback}` -/
def orElse (value fallback : Word) : Word := if value = [] then fallback else value

/-- The substitution of all occurrences, from left to right; `skip` characters have been replaced
already. -/
def substituteFrom (old new : Word) : ℕ → Word → Word
  | _, [] => []
  | skip + 1, _ :: rest => substituteFrom old new skip rest
  | 0, c :: rest =>
    if old <+: c :: rest then new ++ substituteFrom old new (old.length - 1) rest
    else c :: substituteFrom old new 0 rest

/-- `[[ $VERSION =~ ^1\.[0-1]\.* ]]`; the last dot may be missing. -/
def beforeMultiArch (version : Word) : Prop :=
  "1.0".toList <+: version ∨ "1.1".toList <+: version

instance (version : Word) : Decidable (beforeMultiArch version) :=
  inferInstanceAs (Decidable (_ ∨ _))

/-- `[[ $VERSION =~ ^2\.[0-4]\.* ]]` -/
def beforeDarwinArm (version : Word) : Prop :=
  ∃ digit ∈ "01234".toList, "2.".toList ++ [digit] <+: version

instance (version : Word) : Decidable (beforeDarwinArm version) :=
  inferInstanceAs (Decidable (∃ digit ∈ "01234".toList, _))

/-- The settings for the arguments. -/
def settings (h : Host) (a : Arguments) : Settings :=
  let platform :=
    if beforeDarwinArm a.fabricVersion then
      substituteFrom "darwin-arm64".toList "darwin-amd64".toList 0 h.platform
    else h.platform
  { version := a.fabricVersion
    caVersion := a.caVersion
    registry := orElse h.registry "docker.io/hyperledger".toList
    fabricTag :=
      if beforeMultiArch a.fabricVersion then h.march ++ '-' :: a.fabricVersion
      else orElse h.fabricTag a.fabricVersion
    caTag :=
      if beforeMultiArch a.fabricVersion then h.march ++ '-' :: a.caVersion
      else orElse h.caTag a.caVersion
    binaryFile :=
      "hyperledger-fabric-".toList ++ platform ++ '-' :: a.fabricVersion ++ ".tar.gz".toList
    caBinaryFile :=
      "hyperledger-fabric-ca-".toList ++ platform ++ '-' :: a.caVersion ++ ".tar.gz".toList
    rc := h.rc }

/-! ### Commands -/

/-- `CONTAINER_CLI` -/
inductive Cli
  | podman
  | docker
  deriving DecidableEq

/-- The commands of the script, each with an exit status. -/
inductive Command
  /-- `[ -d directory ]` -/
  | isDirectory (directory : Word)
  | cd (directory : Word)
  /-- `git clone -b main https://github.com/hyperledger/fabric-samples.git` -/
  | gitClone
  | gitRevParse (revision : Word)
  | gitCheckout (revision : Word)
  /-- `curl -L url | tar xz -C directory`, with the status of `tar`; `none` is the current
  directory -/
  | unpack (url : Word) (directory : Option Word)
  /-- `command -v cli` -/
  | commandV (cli : Cli)
  | pull (cli : Cli) (image : Word)
  | tag (cli : Cli) (image name : Word)
  /-- `cli images | grep hyperledger` -/
  | images (cli : Cli)
  deriving DecidableEq

/-- A part of the script; every command replies with its exit status. -/
abbrev Script (α : Type) := Prog Command (fun _ => ℕ) α

/-- Make a command. -/
abbrev exec (c : Command) : Script ℕ := Prog.call c

/-! ### Functions -/

section Functions

variable (cfg : Settings)

/-- `${REGISTRY}/fabric-$image_name` -/
def imagePath (imageName : Word) : Word := cfg.registry ++ "/fabric-".toList ++ imageName

/-- `echo tag | cut -d'.' -f1,2` -/
def twoDigitImageTag (tag : Word) : Word := List.intercalate ['.'] ((tag.splitOn '.').take 2)

/-- `singleImagePull` -/
def singleImagePull (cli : Cli) (tag : Word) : List Word → Script Unit
  | [] => return ()
  | imageName :: rest => do
    let image := imagePath cfg imageName ++ ':' :: tag
    let _ ← exec (.pull cli image)
    let _ ← exec (.tag cli image (imagePath cfg imageName))
    let _ ← exec (.tag cli image (imagePath cfg imageName ++ ':' :: twoDigitImageTag tag))
    singleImagePull cli tag rest

/-- `cloneSamplesRepo` -/
def cloneSamplesRepo : Script Unit := do
  if (← exec (.isDirectory "test-network".toList)) = 0 then
    checkout
  else if (← exec (.isDirectory "fabric-samples".toList)) = 0 then
    let _ ← exec (.cd "fabric-samples".toList)
    checkout
  else if (← exec .gitClone) = 0 then
    let _ ← exec (.cd "fabric-samples".toList)
    checkout
  else
    checkout
where
  /-- The checkout at the end of `cloneSamplesRepo`. -/
  checkout : Script Unit := do
    if (← exec (.gitRevParse ('v' :: cfg.version))) = 0 then
      let _ ← exec (.gitCheckout ('v' :: cfg.version))
    else
      let _ ← exec (.gitCheckout "main".toList)

/-- `download`; `rc` keeps a value that the environment has given it. -/
def download (url : Word) : Script ℕ := do
  let samples ← exec (.isDirectory "fabric-samples".toList)
  let status ← exec (.unpack url (if samples = 0 then some "fabric-samples".toList else none))
  return if status ≠ 0 ∨ cfg.rc ≠ [] then 22 else 0

/-- The URL of the fabric binaries. -/
def fabricUrl : Word :=
  "https://github.com/hyperledger/fabric/releases/download/v".toList ++ cfg.version ++
    '/' :: cfg.binaryFile

/-- The URL of the client of the certificate authority. -/
def caUrl : Word :=
  "https://github.com/hyperledger/fabric-ca/releases/download/v".toList ++ cfg.caVersion ++
    '/' :: cfg.caBinaryFile

/-- `pullBinaries`, with the status of its `exit` if it makes one: that of the `echo` before. -/
def pullBinaries : Script (Option ℕ) := do
  if (← download cfg (fabricUrl cfg)) = 22 then
    return some 0
  else if (← download cfg (caUrl cfg)) = 22 then
    return some 0
  else
    return none

/-- `FABRIC_IMAGES` -/
def fabricImages : List Word :=
  ["peer".toList, "orderer".toList, "ccenv".toList] ++
    if "2.".toList <+: cfg.version ∨ "3.".toList <+: cfg.version then ["baseos".toList] else []

/-- `pullImages`, with the status of its last command. -/
def pullImages (cli : Cli) : Script ℕ := do
  if (← exec (.commandV cli)) = 0 then
    singleImagePull cfg cli cfg.fabricTag (fabricImages cfg)
    singleImagePull cfg cli cfg.caTag ["ca".toList]
    exec (.images cli)
  else
    return 0

end Functions

/-! ### Components -/

/-- The indices in `_arg_comp` that `_positional_names` lists. -/
def positionalNames (n : ℕ) : List ℕ := 0 :: List.range' 1 (n - 1)

/-- `_arg_comp[i]=value` -/
def assign (comp : List Word) (i : ℕ) (value : Word) : List Word :=
  comp.take i ++ value :: comp.drop (i + 1)

/-- The loop of `assign_positional_args`. -/
def assignPositionalArgs (comp : List Word) : List ℕ → List Word → List Word
  | name :: names, value :: values => assignPositionalArgs (assign comp name value) names values
  | _, _ => comp

/-- `"${_arg_comp[@]}"` -/
def joined (comp : List Word) : Word := List.intercalate [' '] comp

/-- The search for a component's letter, at the start or after a blank or a comma. -/
def findLetter (letter : Char) : Bool → Word → Bool
  | _, [] => false
  | atStart, c :: rest => (atStart && c == letter) || findLetter letter (c == ' ' || c == ',') rest

/-- `_arg_comp`, after the default for no components. -/
def components (positionals : List Word) : List Word :=
  let comp := assignPositionalArgs [[]] (positionalNames positionals.length) positionals
  if joined comp = [] then ["samples,binary,docker".toList] else comp

/-- `[[ "${_arg_comp[@]}" =~ (^| |,)s(amples)? ]]` and its like: the rest of the name may be
missing. -/
def requested (comp : List Word) (letter : Char) : Bool := findLetter letter true (joined comp)

/-! ### The script -/

/-- An `if` of the script; without an `else` its status is zero. -/
def whenRequested {α : Type} (b : Bool) (p : Script α) (otherwise : α) : Script α :=
  if b then p else return otherwise

/-- The script after the command line has been read, with its exit status. -/
def install (cfg : Settings) (comp : List Word) : Script ℕ := do
  whenRequested (requested comp 's') (cloneSamplesRepo cfg) ()
  match ← whenRequested (requested comp 'b') (pullBinaries cfg) none with
  | some status => return status
  | none =>
    let _ ← whenRequested (requested comp 'p') (pullImages cfg .podman) 0
    whenRequested (requested comp 'd') (pullImages cfg .docker) 0

/-- `install-fabric.sh` -/
def main (h : Host) (args : List Word) : Script ℕ :=
  match parseCommandline .default args with
  | .error e => return e.status
  | .ok a => install (settings h a) (components a.positionals)

end Install
