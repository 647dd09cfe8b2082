import SubstrateFabric.Install.Script

/-!
# What a run of the installer does

A run of the installer goes through four stages: the samples, the binaries, and the images of the
two container tools.  Whatever its commands reply,

* `install_run`: it goes through the stages that its command line selects, in this order, until a
  download fails, which is then the last command it makes; and the exit status tells nothing but
  whether the command line was complete and whether the last listing of the `docker` images found
  any;
* `install_versions`: everything it fetches is of the versions that its command line gives, unless
  the environment sets tags of its own.
-/

namespace Install

open Interaction

/-! ### Selected components -/

/-- The stages of the script. -/
inductive Stage
  | samples
  | binary
  | podman
  | docker
  deriving DecidableEq

namespace Stage

/-- The letter that selects the stage. -/
def letter : Stage → Char
  | samples => 's'
  | binary => 'b'
  | podman => 'p'
  | docker => 'd'

/-- The place of the stage in the script. -/
def rank : Stage → ℕ
  | samples => 0
  | binary => 1
  | podman => 2
  | docker => 3

end Stage

/-- The pieces of a word between blanks and commas. -/
def pieces (word : Word) : List Word := word.splitOnP fun c => c == ' ' || c == ','

/-- The stage is selected: a piece of a positional argument begins with its letter.  Without
components, or with an empty one, everything but the `podman` images is. -/
def Selected (positionals : List Word) (stage : Stage) : Prop :=
  if positionals = [] ∨ positionals = [[]] then stage ≠ .podman
  else ∃ word ∈ positionals, ∃ piece ∈ pieces word, piece.head? = some stage.letter

section Selected

/-- A search finds the letter at the head of a piece, of the first one only at the start. -/
theorem findLetter_iff {letter : Char} (h : ¬ (letter == ' ' || letter == ',')) (atStart : Bool)
    (word : Word) :
    findLetter letter atStart word = true ↔
      (atStart = true ∧ ∃ piece ∈ (pieces word).head?, piece.head? = some letter) ∨
        ∃ piece ∈ (pieces word).tail, piece.head? = some letter := by
  induction word generalizing atStart with
  | nil => simp [findLetter, pieces]
  | cons c rest ih =>
    obtain ⟨piece, ps, hps⟩ := List.exists_cons_of_ne_nil
      (List.splitOnP_ne_nil (fun c => c == ' ' || c == ',') rest)
    simp only [pieces, hps] at ih
    by_cases hc : (c == ' ' || c == ',') = true
    · have hne : (c == letter) = false := by
        by_contra hne
        rw [Bool.not_eq_false, beq_iff_eq] at hne
        exact h (hne ▸ hc)
      have hrest := ih true
      simp only [findLetter, pieces, List.splitOnP_cons_eq_if_modifyHead, hc, hps, hne]
      simpa using hrest
    · have hrest := ih false
      simp only [Bool.false_eq_true, false_and, false_or, List.tail_cons] at hrest
      simp only [findLetter, pieces, List.splitOnP_cons_eq_if_modifyHead, hc, hps]
      simp [hrest]

theorem findLetter_start {letter : Char} (h : ¬ (letter == ' ' || letter == ',')) (word : Word) :
    findLetter letter true word = true ↔ ∃ piece ∈ pieces word, piece.head? = some letter := by
  rw [findLetter_iff h]
  obtain ⟨piece, ps, hps⟩ := List.exists_cons_of_ne_nil
    (List.splitOnP_ne_nil (fun c => c == ' ' || c == ',') word)
  simp [pieces, hps]

theorem joined_cons (word : Word) {rest : List Word} (h : rest ≠ []) :
    joined (word :: rest) = word ++ ' ' :: joined rest := by
  obtain ⟨w, ws, rfl⟩ := List.exists_cons_of_ne_nil h
  rw [joined, List.intercalate_cons_cons, List.append_assoc, List.singleton_append]
  rfl

theorem joined_singleton (word : Word) : joined [word] = word := List.intercalate_singleton

/-- The pieces of the joined words are those of the words. -/
theorem pieces_joined {comp : List Word} (h : comp ≠ []) :
    pieces (joined comp) = comp.flatMap pieces := by
  induction comp with
  | nil => exact absurd rfl h
  | cons word rest ih =>
    by_cases hrest : rest = []
    · rw [hrest, joined_singleton, List.flatMap_singleton]
    · rw [joined_cons word hrest, List.flatMap_cons, ← ih hrest]
      exact List.splitOnP_append_cons word (joined rest) rfl

theorem joined_eq_nil_iff {comp : List Word} : joined comp = [] ↔ comp = [] ∨ comp = [[]] := by
  cases comp with
  | nil => simp [joined]
  | cons word rest =>
    by_cases hrest : rest = []
    · simp [hrest, joined_singleton]
    · simp [joined_cons word hrest, hrest]

/-- The loop appends the values, once the first element is assigned. -/
theorem assignPositionalArgs_range (comp values : List Word) :
    assignPositionalArgs comp (List.range' comp.length values.length) values = comp ++ values := by
  induction values generalizing comp with
  | nil => simp [assignPositionalArgs]
  | cons value values ih =>
    have hassign : assign comp comp.length value = comp ++ [value] := by simp [assign]
    have hrest := ih (comp ++ [value])
    rw [List.length_append, List.length_singleton, List.append_assoc,
      List.singleton_append] at hrest
    rw [List.length_cons, List.range'_succ, assignPositionalArgs, hassign]
    exact hrest

/-- The positional arguments become the components, if there are any. -/
theorem assignPositionalArgs_eq (positionals : List Word) :
    assignPositionalArgs [[]] (positionalNames positionals.length) positionals =
      if positionals = [] then [[]] else positionals := by
  cases positionals with
  | nil => rfl
  | cons value values => exact assignPositionalArgs_range [value] values

/-- The script goes for the components that the command line selects. -/
theorem requested_iff (positionals : List Word) (stage : Stage) :
    requested (components positionals) stage.letter = true ↔ Selected positionals stage := by
  have hletter : ¬ (stage.letter == ' ' || stage.letter == ',') := by cases stage <;> decide
  unfold components Selected
  rw [assignPositionalArgs_eq]
  by_cases h : positionals = [] ∨ positionals = [[]]
  · have hjoined : joined (if positionals = [] then [[]] else positionals) = [] := by
      rw [joined_eq_nil_iff]
      rcases h with rfl | rfl <;> simp
    rw [if_pos hjoined, if_pos h]
    cases stage <;> decide
  · obtain ⟨hnil, hempty⟩ := not_or.1 h
    rw [if_neg hnil, if_neg (joined_eq_nil_iff.not.2 h), if_neg h, requested,
      findLetter_start hletter, pieces_joined hnil]
    simp only [List.mem_flatMap]
    constructor
    · rintro ⟨piece, ⟨word, hword, hpiece⟩, hhead⟩
      exact ⟨word, hword, piece, hpiece, hhead⟩
    · rintro ⟨word, hword, piece, hpiece, hhead⟩
      exact ⟨piece, ⟨word, hword, hpiece⟩, hhead⟩

end Selected

/-! ### Stages -/

/-- The stage of a container tool. -/
def Cli.stage : Cli → Stage
  | podman => .podman
  | docker => .docker

/-- The stage that a command belongs to; looking for a directory belongs to none. -/
def Command.stage? : Command → Option Stage
  | isDirectory _ => none
  | cd _ => some .samples
  | gitClone => some .samples
  | gitRevParse _ => some .samples
  | gitCheckout _ => some .samples
  | unpack _ _ => some .binary
  | commandV cli => some cli.stage
  | pull cli _ => some cli.stage
  | tag cli _ _ => some cli.stage
  | images cli => some cli.stage

/-- A log of commands with their exit statuses. -/
abbrev Log := List (Exchange Command fun _ => ℕ)

/-- The stages that a log goes through. -/
def stages (log : Log) : List Stage := log.filterMap fun x => x.1.stage?

/-- A download that failed. -/
def Failed (rc : Word) (x : Exchange Command fun _ => ℕ) : Prop :=
  ∃ url directory, x.1 = .unpack url directory ∧ (x.2 ≠ 0 ∨ rc ≠ [])

/-- The log stays in one stage, and is in it exactly if the stage was requested. -/
structure Segment (b : Bool) (stage : Stage) (log : Log) : Prop where
  only : ∀ st ∈ stages log, st = stage
  mem_iff : stage ∈ stages log ↔ b = true

section Paths

variable {cfg : Settings} {log : Log}

theorem mem_stages {st : Stage} : st ∈ stages log ↔ ∃ x ∈ log, x.1.stage? = some st :=
  List.mem_filterMap

/-- A part of the script whose commands are all of one stage. -/
theorem Segment.of_path {α : Type} {p : Script α} {b : Bool} {otherwise a : α} {stage : Stage}
    (hasks : p.Asks fun c => ∀ st, c.stage? = some st → st = stage)
    (hmust : p.MustAsk fun c => c.stage? = some stage)
    (h : (whenRequested b p otherwise).Path log a) : Segment b stage log := by
  cases b with
  | false =>
    obtain ⟨rfl, -⟩ := h
    exact ⟨fun _ hst => (nomatch hst), by simp [stages]⟩
  | true =>
    refine ⟨fun st hst => ?_, iff_of_true (mem_stages.2 (hmust.of_path h)) rfl⟩
    obtain ⟨x, hx, hst⟩ := mem_stages.1 hst
    exact hasks.of_path h x hx st hst

theorem whenRequested_asks {α : Type} {Q : Command → Prop} {p : Script α} {b : Bool} {otherwise : α}
    (h : p.Asks Q) : (whenRequested b p otherwise).Asks Q := by
  cases b with
  | false => exact trivial
  | true => exact h

theorem singleImagePull_asks {Q : Command → Prop} {cli : Cli} {tag : Word} {names : List Word}
    (h : ∀ name ∈ names, Q (.pull cli (imagePath cfg name ++ ':' :: tag)) ∧
      ∀ name', Q (.tag cli (imagePath cfg name ++ ':' :: tag) name')) :
    (singleImagePull cfg cli tag names).Asks Q := by
  induction names with
  | nil => exact trivial
  | cons name names ih =>
    obtain ⟨⟨hpull, htag⟩, hnames⟩ := List.forall_mem_cons.1 h
    refine Prog.Asks.call_bind hpull fun _ => ?_
    refine Prog.Asks.call_bind (htag _) fun _ => ?_
    exact Prog.Asks.call_bind (htag _) fun _ => ih hnames

theorem pullImages_asks {Q : Command → Prop} {cli : Cli} (hcommand : Q (.commandV cli))
    (hfabric : ∀ name ∈ fabricImages cfg,
      Q (.pull cli (imagePath cfg name ++ ':' :: cfg.fabricTag)) ∧
        ∀ name', Q (.tag cli (imagePath cfg name ++ ':' :: cfg.fabricTag) name'))
    (hca : Q (.pull cli (imagePath cfg "ca".toList ++ ':' :: cfg.caTag)) ∧
      ∀ name', Q (.tag cli (imagePath cfg "ca".toList ++ ':' :: cfg.caTag) name'))
    (himages : Q (.images cli)) : (pullImages cfg cli).Asks Q := by
  refine Prog.Asks.call_bind hcommand fun r => ?_
  split_ifs
  · refine (singleImagePull_asks hfabric).bind fun _ => ?_
    refine (singleImagePull_asks (by simpa using hca)).bind fun _ => ?_
    exact ⟨himages, fun _ => trivial⟩
  · exact trivial

theorem cloneSamplesRepo_asks {Q : Command → Prop} (hdirectory : ∀ d, Q (.isDirectory d))
    (hcd : ∀ d, Q (.cd d)) (hclone : Q .gitClone) (hrev : Q (.gitRevParse ('v' :: cfg.version)))
    (hversion : Q (.gitCheckout ('v' :: cfg.version))) (hmain : Q (.gitCheckout "main".toList)) :
    (cloneSamplesRepo cfg).Asks Q := by
  have hcheckout : (cloneSamplesRepo.checkout cfg).Asks Q := by
    refine Prog.Asks.call_bind hrev fun r => ?_
    split_ifs
    · exact Prog.Asks.call_bind hversion fun _ => trivial
    · exact Prog.Asks.call_bind hmain fun _ => trivial
  refine Prog.Asks.call_bind (hdirectory _) fun r => ?_
  split_ifs
  · exact hcheckout
  refine Prog.Asks.call_bind (hdirectory _) fun r => ?_
  split_ifs
  · exact Prog.Asks.call_bind (hcd _) fun _ => hcheckout
  refine Prog.Asks.call_bind hclone fun r => ?_
  split_ifs
  · exact Prog.Asks.call_bind (hcd _) fun _ => hcheckout
  · exact hcheckout

theorem cloneSamplesRepo_mustAsk :
    (cloneSamplesRepo cfg).MustAsk fun c => c.stage? = some .samples := by
  refine Prog.MustAsk.call_bind fun r => ?_
  split_ifs
  · exact Prog.MustAsk.of_call rfl
  refine Prog.MustAsk.call_bind fun r => ?_
  split_ifs
  · exact Prog.MustAsk.of_call rfl
  · exact Prog.MustAsk.of_call rfl

theorem pullBinaries_asks {Q : Command → Prop} (hdirectory : ∀ d, Q (.isDirectory d))
    (hfabric : ∀ d, Q (.unpack (fabricUrl cfg) d)) (hca : ∀ d, Q (.unpack (caUrl cfg) d)) :
    (pullBinaries cfg).Asks Q := by
  have hdownload : ∀ url, (∀ d, Q (.unpack url d)) → (download cfg url).Asks Q := fun url hurl =>
    Prog.Asks.call_bind (hdirectory _) fun _ => Prog.Asks.call_bind (hurl _) fun _ => trivial
  refine (hdownload _ hfabric).bind fun r => ?_
  split_ifs
  · exact trivial
  refine (hdownload _ hca).bind fun r => ?_
  split_ifs
  · exact trivial
  · exact trivial

theorem pullBinaries_mustAsk :
    (pullBinaries cfg).MustAsk fun c => c.stage? = some .binary :=
  Prog.MustAsk.call_bind fun _ => Prog.MustAsk.of_call rfl

theorem pullImages_mustAsk (cli : Cli) :
    (pullImages cfg cli).MustAsk fun c => c.stage? = some cli.stage :=
  Prog.MustAsk.of_call rfl

/-- A download has failed exactly if it returns 22. -/
theorem download_path {url : Word} {r : ℕ} (h : (download cfg url).Path log r) :
    ∃ x y, log = [x, y] ∧ ¬ Failed cfg.rc x ∧
      ((r = 22 ∧ Failed cfg.rc y) ∨ (r ≠ 22 ∧ ¬ Failed cfg.rc y)) := by
  obtain ⟨samples, _, rfl, status, _, rfl, rfl, rfl⟩ := h
  refine ⟨_, _, rfl, ?_, ?_⟩
  · rintro ⟨_, _, hx, -⟩
    cases hx
  · by_cases hfail : status ≠ 0 ∨ cfg.rc ≠ []
    · exact .inl ⟨if_pos hfail, _, _, rfl, hfail⟩
    · refine .inr ⟨by rw [if_neg hfail]; decide, ?_⟩
      rintro ⟨_, _, -, hy⟩
      exact hfail hy

/-- The binaries are downloaded one after the other, up to the first failure. -/
theorem pullBinaries_path {r : Option ℕ} (h : (pullBinaries cfg).Path log r) :
    (r = none ∧ ∀ x ∈ log, ¬ Failed cfg.rc x) ∨
      (r = some 0 ∧
        ∃ pre x, log = pre ++ [x] ∧ Failed cfg.rc x ∧ ∀ y ∈ pre, ¬ Failed cfg.rc y) := by
  obtain ⟨log₁, log₂, r₁, rfl, h₁, htail⟩ := Prog.path_bind.1 h
  obtain ⟨x₁, y₁, rfl, hx₁, ⟨rfl, hy₁⟩ | ⟨hr₁, hy₁⟩⟩ := download_path h₁
  · obtain ⟨rfl, rfl⟩ := htail
    exact .inr ⟨rfl, [x₁], y₁, rfl, hy₁, by simpa using hx₁⟩
  rw [if_neg hr₁] at htail
  obtain ⟨log₃, log₄, r₂, rfl, h₂, hend⟩ := Prog.path_bind.1 htail
  obtain ⟨x₂, y₂, rfl, hx₂, ⟨rfl, hy₂⟩ | ⟨hr₂, hy₂⟩⟩ := download_path h₂
  · obtain ⟨rfl, rfl⟩ := hend
    exact .inr ⟨rfl, [x₁, y₁, x₂], y₂, rfl, hy₂, by simp [hx₁, hy₁, hx₂]⟩
  · rw [if_neg hr₂] at hend
    obtain ⟨rfl, rfl⟩ := hend
    exact .inl ⟨rfl, by simp [hx₁, hy₁, hx₂, hy₂]⟩

/-- The images are listed last, and the status is that of the listing. -/
theorem pullImages_path {cli : Cli} {r : ℕ} (h : (pullImages cfg cli).Path log r) :
    r = 0 ∨ ∃ pre, log = pre ++ [⟨.images cli, r⟩] := by
  obtain ⟨log₁, log₂, status, rfl, -, hrest⟩ := Prog.path_bind.1 h
  split_ifs at hrest
  · obtain ⟨log₃, log₄, _, rfl, -, htail⟩ := Prog.path_bind.1 hrest
    obtain ⟨log₅, log₆, _, rfl, -, hend⟩ := Prog.path_bind.1 htail
    obtain ⟨_, _, rfl, rfl, rfl⟩ := hend
    exact .inr ⟨log₁ ++ (log₃ ++ log₅), by simp⟩
  · exact .inl hrest.2

theorem Segment.samples {comp : List Word} {a : Unit}
    (h : (whenRequested (requested comp 's') (cloneSamplesRepo cfg) ()).Path log a) :
    Segment (requested comp 's') .samples log := by
  refine .of_path (cloneSamplesRepo_asks ?_ ?_ ?_ ?_ ?_ ?_) cloneSamplesRepo_mustAsk h
  all_goals simp [Command.stage?]

theorem Segment.binary {comp : List Word} {r : Option ℕ}
    (h : (whenRequested (requested comp 'b') (pullBinaries cfg) none).Path log r) :
    Segment (requested comp 'b') .binary log := by
  refine .of_path (pullBinaries_asks ?_ ?_ ?_) pullBinaries_mustAsk h
  all_goals simp [Command.stage?]

theorem Segment.images {b : Bool} {cli : Cli} {r : ℕ}
    (h : (whenRequested b (pullImages cfg cli) 0).Path log r) : Segment b cli.stage log := by
  refine .of_path (pullImages_asks ?_ ?_ ?_ ?_) (pullImages_mustAsk cli) h
  all_goals simp [Command.stage?]

theorem stages_append (log log' : Log) : stages (log ++ log') = stages log ++ stages log' :=
  List.filterMap_append

namespace Segment

variable {b : Bool} {stage : Stage}

theorem mem (h : Segment b stage log) {st : Stage} : st ∈ stages log ↔ b = true ∧ st = stage := by
  constructor
  · intro hst
    have heq := h.only st hst
    exact ⟨h.mem_iff.1 (heq ▸ hst), heq⟩
  · rintro ⟨hb, rfl⟩
    exact h.mem_iff.2 hb

theorem nil (stage : Stage) : Segment false stage [] :=
  ⟨fun _ hst => (nomatch hst), by simp [stages]⟩

/-- Only the binaries are downloaded. -/
theorem not_failed (h : Segment b stage log) (hstage : stage ≠ .binary) (rc : Word) :
    ∀ x ∈ log, ¬ Failed rc x := by
  rintro x hx ⟨url, directory, hc, -⟩
  have hst : .binary ∈ stages log := mem_stages.2 ⟨x, hx, by rw [hc]; rfl⟩
  exact hstage (h.only _ hst).symm

theorem pairwise (h : Segment b stage log) :
    (stages log).Pairwise fun st st' => st.rank ≤ st'.rank := by
  rw [List.pairwise_iff_forall_sublist]
  intro st st' hsub
  rw [h.only st (hsub.subset (by simp)), h.only st' (hsub.subset (by simp))]

/-- A segment before a log of later stages. -/
theorem pairwise_append {log' : Log} (h : Segment b stage log)
    (h' : (stages log').Pairwise fun st st' => st.rank ≤ st'.rank)
    (hle : ∀ st ∈ stages log', stage.rank ≤ st.rank) :
    (stages (log ++ log')).Pairwise fun st st' => st.rank ≤ st'.rank := by
  rw [stages_append]
  refine List.pairwise_append.2 ⟨h.pairwise, h', fun st hst st' hst' => ?_⟩
  rw [h.only st hst]
  exact hle st' hst'

end Segment

/-- All that the script can do: it goes through its stages, and ends at a failed download or with
the `docker` images. -/
theorem install_path {comp : List Word} {status : ℕ} (h : (install cfg comp).Path log status) :
    ∃ ok log₁ log₂ log₃ log₄, log = log₁ ++ (log₂ ++ (log₃ ++ log₄)) ∧
      Segment (requested comp 's') .samples log₁ ∧ Segment (requested comp 'b') .binary log₂ ∧
      Segment (requested comp 'p' && ok) .podman log₃ ∧
      Segment (requested comp 'd' && ok) .docker log₄ ∧
      ((ok = false ∧ status = 0 ∧
          ∃ pre x, log = pre ++ [x] ∧ Failed cfg.rc x ∧ ∀ y ∈ pre, ¬ Failed cfg.rc y) ∨
        (ok = true ∧ (∀ x ∈ log, ¬ Failed cfg.rc x) ∧
          (status = 0 ∨ ∃ pre, log = pre ++ [⟨.images .docker, status⟩]))) := by
  obtain ⟨log₁, tail₁, _, rfl, h₁, htail⟩ := Prog.path_bind.1 h
  obtain ⟨log₂, tail₂, r, rfl, h₂, hend⟩ := Prog.path_bind.1 htail
  have hsamples := Segment.samples h₁
  have hbinary := Segment.binary h₂
  have hdownloads : (r = none ∧ ∀ x ∈ log₂, ¬ Failed cfg.rc x) ∨ (r = some 0 ∧
      ∃ pre x, log₂ = pre ++ [x] ∧ Failed cfg.rc x ∧ ∀ y ∈ pre, ¬ Failed cfg.rc y) := by
    unfold whenRequested at h₂
    split_ifs at h₂
    · exact pullBinaries_path h₂
    · obtain ⟨rfl, rfl⟩ := h₂
      exact .inl ⟨rfl, fun _ hx => (nomatch hx)⟩
  rcases hdownloads with ⟨rfl, hok⟩ | ⟨rfl, pre, x, rfl, hx, hpre⟩
  · obtain ⟨log₃, log₄, _, rfl, h₃, h₄⟩ := Prog.path_bind.1 hend
    have hpodman := Segment.images h₃
    have hdocker := Segment.images h₄
    refine ⟨true, log₁, log₂, log₃, log₄, rfl, hsamples, hbinary, by rwa [Bool.and_true],
      by rwa [Bool.and_true], .inr ⟨rfl, ?_, ?_⟩⟩
    · simp only [List.forall_mem_append]
      exact ⟨hsamples.not_failed (by decide) _, hok, hpodman.not_failed (by decide) _,
        hdocker.not_failed (by decide) _⟩
    · unfold whenRequested at h₄
      split_ifs at h₄
      · rcases pullImages_path h₄ with hzero | ⟨pre, rfl⟩
        · exact .inl hzero
        · exact .inr ⟨log₁ ++ (log₂ ++ (log₃ ++ pre)), by simp⟩
      · exact .inl h₄.2
  · obtain ⟨rfl, rfl⟩ := hend
    refine ⟨false, log₁, pre ++ [x], [], [], rfl, hsamples, hbinary, ?_, ?_,
      .inl ⟨rfl, rfl, log₁ ++ pre, x, by simp, hx, ?_⟩⟩
    · rw [Bool.and_false]
      exact .nil _
    · rw [Bool.and_false]
      exact .nil _
    · exact List.forall_mem_append.2 ⟨hsamples.not_failed (by decide) _, hpre⟩

/-- The stages of the script come in order, the requested ones up to a failed download. -/
theorem install_stages {comp : List Word} {status : ℕ} (h : (install cfg comp).Path log status) :
    ((stages log).Pairwise fun st st' => st.rank ≤ st'.rank) ∧
      ∀ st, st ∈ stages log ↔ requested comp st.letter = true ∧
        ((∃ x ∈ log, Failed cfg.rc x) → st.rank ≤ Stage.binary.rank) := by
  obtain ⟨ok, log₁, log₂, log₃, log₄, hlog, h₁, h₂, h₃, h₄, hend⟩ := install_path h
  have hfailed : (∃ x ∈ log, Failed cfg.rc x) ↔ ok = false := by
    rcases hend with ⟨hok, -, pre, x, rfl, hx, -⟩ | ⟨hok, hnone, -⟩
    · exact iff_of_true ⟨x, by simp, hx⟩ hok
    · refine iff_of_false ?_ (by simp [hok])
      rintro ⟨x, hmem, hx⟩
      exact hnone x hmem hx
  rw [hfailed, hlog]
  constructor
  · refine h₁.pairwise_append (h₂.pairwise_append (h₃.pairwise_append h₄.pairwise ?_) ?_) ?_
    · intro st hst
      rw [h₄.only st hst]
      decide
    · intro st hst
      rw [stages_append, List.mem_append] at hst
      rcases hst with hst | hst
      · rw [h₃.only st hst]
        decide
      · rw [h₄.only st hst]
        decide
    · intro st hst
      exact Nat.zero_le _
  · intro st
    simp only [stages_append, List.mem_append, h₁.mem, h₂.mem, h₃.mem, h₄.mem]
    cases ok <;> cases st <;> simp [Stage.letter, Stage.rank]

end Paths

/-! ### Runs -/

/-- What the script does with a command line. -/
theorem main_words (h : Host) (l : CommandLine) :
    main h l.words =
      match l.meaning .default with
      | .error e => .ret e.status
      | .ok a => install (settings h a) (components a.positionals) := by
  unfold main
  rw [parseCommandline_meaning]
  rfl

/-- The tag of an image for a version; before the multi-architecture images it names the machine. -/
def versionTag (h : Host) (fabricVersion version : Word) : Word :=
  if beforeMultiArch fabricVersion then h.march ++ '-' :: version else version

/-- The image is one of a fabric version, or the one of a version of the certificate authority. -/
def ImageOf (h : Host) (version caVersion image : Word) : Prop :=
  let path := orElse h.registry "docker.io/hyperledger".toList ++ "/fabric-".toList
  (∃ name ∈ ["peer".toList, "orderer".toList, "ccenv".toList, "baseos".toList],
      image = path ++ name ++ ':' :: versionTag h version version) ∨
    image = path ++ "ca".toList ++ ':' :: versionTag h version caVersion

/-- The URL is the one of the binaries of a fabric version, or of a version of the certificate
authority, for some platform. -/
def UrlOf (version caVersion url : Word) : Prop :=
  ∃ platform,
    url = "https://github.com/hyperledger/fabric/releases/download/v".toList ++ version ++
      '/' :: ("hyperledger-fabric-".toList ++ platform ++ '-' :: version ++ ".tar.gz".toList) ∨
    url = "https://github.com/hyperledger/fabric-ca/releases/download/v".toList ++ caVersion ++
      '/' :: ("hyperledger-fabric-ca-".toList ++ platform ++ '-' :: caVersion ++ ".tar.gz".toList)

/-- Whatever the command fetches is of the two versions.  The samples may be those of the branch
`main`. -/
def Command.OfVersions (h : Host) (version caVersion : Word) : Command → Prop
  | gitRevParse revision => revision = 'v' :: version
  | gitCheckout revision => revision = 'v' :: version ∨ revision = "main".toList
  | unpack url _ => UrlOf version caVersion url
  | pull _ image => ImageOf h version caVersion image
  | tag _ image _ => ImageOf h version caVersion image
  | _ => True

section Runs

variable {σ : Type}

/-- **A run does what its command line selects.**  Run the installer on any command line, against
commands that reply whatever they like.

* A line that asks for help, or ends with an option that lacks its value, runs no command; the
  status is 0 and 1.
* Otherwise the commands come in the order of the stages.  They go through a stage exactly if the
  line selects it and, beyond the binaries, no download has failed.
* A failed download is the last command, and the status is 0.
* A status other than 0 is the one of the last command, which lists the `docker` images. -/
theorem install_run (E : Env Command (fun _ => ℕ) σ) (s : σ) (h : Host) (l : CommandLine) :
    let o := run E (main h l.words) s
    match l.ending with
    | .help _ _ => o.log = [] ∧ o.value = 0
    | .missing _ _ => o.log = [] ∧ o.value = 1
    | .complete =>
      ((stages o.log).Pairwise fun st st' => st.rank ≤ st'.rank) ∧
      (∀ st, st ∈ stages o.log ↔ Selected l.components st ∧
        ((∃ x ∈ o.log, Failed h.rc x) → st.rank ≤ Stage.binary.rank)) ∧
      (∀ pre x post, o.log = pre ++ x :: post → Failed h.rc x → post = [] ∧ o.value = 0) ∧
      (o.value ≠ 0 → ∃ pre, o.log = pre ++ [⟨.images .docker, o.value⟩]) := by
  intro o
  have hpath : (main h l.words).Path o.log o.value := path_run E _ s
  rw [main_words] at hpath
  unfold CommandLine.meaning at hpath
  cases hending : l.ending with
  | help key rest =>
    rw [hending] at hpath
    exact hpath
  | missing option spelling =>
    rw [hending] at hpath
    exact hpath
  | complete =>
    simp only [hending, Arguments.default, List.nil_append] at hpath
    obtain ⟨hsorted, hmem⟩ := install_stages hpath
    refine ⟨hsorted, fun st => ?_, ?_, ?_⟩
    · rw [← requested_iff]
      exact hmem st
    · intro pre x post hlog hx
      obtain ⟨-, -, -, -, -, -, -, -, -, -, ⟨-, hzero, pre', y, hlast, -, hpre⟩ | ⟨-, hnone, -⟩⟩ :=
        install_path hpath
      · rcases List.eq_nil_or_concat post with rfl | ⟨post', z, rfl⟩
        · exact ⟨rfl, hzero⟩
        · have hfront : pre ++ x :: post' ++ [z] = pre' ++ [y] := by
            rw [← hlast, hlog, List.append_assoc, List.cons_append, List.concat_eq_append]
          have hmem : x ∈ pre' := (List.append_inj' hfront rfl).1 ▸ by simp
          exact absurd hx (hpre x hmem)
      · exact absurd hx (hnone x (by simp [hlog]))
    · intro hstatus
      obtain ⟨-, -, -, -, -, -, -, -, -, -, ⟨-, hzero, -⟩ | ⟨-, -, hzero | hlast⟩⟩ :=
        install_path hpath
      · exact absurd hzero hstatus
      · exact absurd hzero hstatus
      · exact hlast

/-- The images of the script are of the versions, if the environment sets no tags. -/
theorem pullImages_ofVersions {h : Host} (hfabric : h.fabricTag = []) (hca : h.caTag = [])
    (a : Arguments) (cli : Cli) :
    (pullImages (settings h a) cli).Asks (Command.OfVersions h a.fabricVersion a.caVersion) := by
  have hnil : ∀ version, orElse [] version = version := fun _ => if_pos rfl
  have hfabricTag : (settings h a).fabricTag = versionTag h a.fabricVersion a.fabricVersion := by
    show (if beforeMultiArch a.fabricVersion then _ else orElse h.fabricTag _) = _
    rw [hfabric, hnil]
    rfl
  have hcaTag : (settings h a).caTag = versionTag h a.fabricVersion a.caVersion := by
    show (if beforeMultiArch a.fabricVersion then _ else orElse h.caTag _) = _
    rw [hca, hnil]
    rfl
  have himage : ∀ name ∈ fabricImages (settings h a), ImageOf h a.fabricVersion a.caVersion
      (imagePath (settings h a) name ++ ':' :: (settings h a).fabricTag) := by
    intro name hname
    rw [hfabricTag]
    refine .inl ⟨name, ?_, rfl⟩
    unfold fabricImages at hname
    split_ifs at hname
    · exact hname
    · rw [List.append_nil] at hname
      exact List.mem_append_left ["baseos".toList] hname
  have hcaImage : ImageOf h a.fabricVersion a.caVersion
      (imagePath (settings h a) "ca".toList ++ ':' :: (settings h a).caTag) := by
    rw [hcaTag]
    exact .inr rfl
  exact pullImages_asks trivial (fun name hname => ⟨himage name hname, fun _ => himage name hname⟩)
    ⟨hcaImage, fun _ => hcaImage⟩ trivial

theorem install_ofVersions {h : Host} (hfabric : h.fabricTag = []) (hca : h.caTag = [])
    (a : Arguments) (comp : List Word) :
    (install (settings h a) comp).Asks (Command.OfVersions h a.fabricVersion a.caVersion) := by
  have hsamples : (cloneSamplesRepo (settings h a)).Asks
      (Command.OfVersions h a.fabricVersion a.caVersion) :=
    cloneSamplesRepo_asks (fun _ => trivial) (fun _ => trivial) trivial rfl (.inl rfl) (.inr rfl)
  have hbinaries : (pullBinaries (settings h a)).Asks
      (Command.OfVersions h a.fabricVersion a.caVersion) :=
    pullBinaries_asks (fun _ => trivial) (fun _ => ⟨_, .inl rfl⟩) (fun _ => ⟨_, .inr rfl⟩)
  have himages := pullImages_ofVersions hfabric hca a
  refine (whenRequested_asks hsamples).bind fun _ => ?_
  refine (whenRequested_asks hbinaries).bind fun r => ?_
  cases r with
  | some status => exact trivial
  | none =>
    refine (whenRequested_asks (himages .podman)).bind fun _ => ?_
    exact whenRequested_asks (himages .docker)

/-- **A run fetches the versions of its command line.**  Run the installer on any command line,
against commands that reply whatever they like, in an environment that sets no tags.  Whatever it
fetches is of the last versions given on the line, or of the default versions where it gives none:
the binaries, the images, and the samples unless they are those of the branch `main`. -/
theorem install_versions (E : Env Command (fun _ => ℕ) σ) (s : σ) {h : Host}
    (hfabric : h.fabricTag = []) (hca : h.caTag = []) (l : CommandLine) :
    ∀ x ∈ (run E (main h l.words) s).log, x.1.OfVersions h
      ((l.version .fabricVersion).getD "2.5.9".toList)
      ((l.version .caVersion).getD "1.5.12".toList) := by
  refine Prog.Asks.of_path ?_ (path_run E _ s)
  rw [main_words]
  unfold CommandLine.meaning
  cases l.ending with
  | help key rest => exact trivial
  | missing option spelling => exact trivial
  | complete =>
    exact install_ofVersions hfabric hca
      { fabricVersion := (l.version .fabricVersion).getD Arguments.default.fabricVersion
        caVersion := (l.version .caVersion).getD Arguments.default.caVersion
        positionals := Arguments.default.positionals ++ l.components } _

/-- The binaries of an older version, given glued to its option, on a machine where every command
succeeds. -/
theorem install_versions_glued :
    let h : Host := ⟨[], [], [], [], "linux-amd64".toList, "x86_64".toList⟩
    let l : CommandLine :=
      ⟨[.glued .fabricVersion "2.4.7".toList, .component ['b']], .complete, by decide, trivial⟩
    let o := run ⟨fun _ _ => 0, fun s _ => s⟩ (main h l.words) ()
    (∀ x ∈ o.log, x.1.OfVersions h "2.4.7".toList "1.5.12".toList) ∧ ∃ url directory,
      ⟨.unpack url directory, 0⟩ ∈ o.log := by
  intro h l o
  refine ⟨install_versions _ () rfl rfl l, ?_⟩
  exact ⟨_, _, List.mem_cons_of_mem _ List.mem_cons_self⟩

end Runs

end Install
