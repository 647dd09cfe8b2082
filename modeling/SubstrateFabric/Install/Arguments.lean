import Mathlib.Tactic

/-!
# The command line of the installer

`install-fabric.sh` takes the versions to install as options, in four spellings each, and the
components to install as positional arguments.  `parseCommandline` is its loop over the arguments.

What may be written is described on its own, without the loop: a `CommandLine` is a sequence of
items, each an option with its value or a component, and the way the line ends.  Every list of
arguments is the text of exactly one command line, and the loop returns what that line means
(`parse_commandline`): the last value given for a version counts, the components keep their order,
a help option counts where no value is due, and an option may lack its value at the end only.
-/

namespace Install

/-- A word of the shell. -/
abbrev Word := List Char

/-- The options that take a value. -/
inductive Opt
  | fabricVersion
  | caVersion
  deriving DecidableEq

namespace Opt

def short : Opt → Word
  | fabricVersion => "-f".toList
  | caVersion => "-c".toList

def long : Opt → Word
  | fabricVersion => "--fabric-version".toList
  | caVersion => "--ca-version".toList

/-- The long option with its equals sign. -/
def equals : Opt → Word
  | fabricVersion => "--fabric-version=".toList
  | caVersion => "--ca-version=".toList

end Opt

/-- What the arguments leave: `_arg_fabric_version`, `_arg_ca_version` and `_positionals`. -/
structure Arguments where
  fabricVersion : Word
  caVersion : Word
  positionals : List Word
  deriving DecidableEq

/-- The values before any argument is read. -/
def Arguments.default : Arguments := ⟨"2.5.9".toList, "1.5.12".toList, []⟩

def Arguments.set (a : Arguments) : Opt → Word → Arguments
  | .fabricVersion, value => { a with fabricVersion := value }
  | .caVersion, value => { a with caVersion := value }

/-- An early end of the script. -/
inductive Exit
  /-- `print_help`, `exit 0` -/
  | help
  /-- `die` -/
  | die (message : Word) (ret : ℕ)
  deriving DecidableEq

def Exit.status : Exit → ℕ
  | help => 0
  | die _ ret => ret

/-- The end at an option without a value. -/
def missingValue (key : Word) : Exit :=
  .die ("Missing value for the optional argument '".toList ++ key ++ "'.".toList) 1

/-- The arms of the `case` statement, the two for help taken together. -/
inductive Arm
  | value (o : Opt)
  | equals (o : Opt)
  | glued (o : Opt)
  | help
  | positional
  deriving DecidableEq

/-- The arm that a key takes. -/
def arm (key : Word) : Arm :=
  if key = "-f".toList ∨ key = "--fabric-version".toList then .value .fabricVersion
  else if "--fabric-version=".toList <+: key then .equals .fabricVersion
  else if "-f".toList <+: key then .glued .fabricVersion
  else if key = "-c".toList ∨ key = "--ca-version".toList then .value .caVersion
  else if key = "-h".toList ∨ key = "--help".toList then .help
  else if "-h".toList <+: key then .help
  else if "--ca-version=".toList <+: key then .equals .caVersion
  else if "-c".toList <+: key then .glued .caVersion
  else .positional

/-- `${key##front}`, for a front that the key has. -/
def cutFront (front key : Word) : Word := key.drop front.length

/-- `parse_commandline` -/
def parseCommandline (a : Arguments) : List Word → Except Exit Arguments
  | [] => .ok a
  | key :: rest =>
    match arm key with
    | .value o =>
      match rest with
      | [] => .error (missingValue key)
      | value :: rest => parseCommandline (a.set o value) rest
    | .equals o => parseCommandline (a.set o (cutFront o.equals key)) rest
    | .glued o => parseCommandline (a.set o (cutFront o.short key)) rest
    | .help => .error .help
    | .positional => parseCommandline { a with positionals := a.positionals ++ [key] } rest

/-! ### Command lines -/

/-- The spellings of an option whose value is a word of its own. -/
inductive Spelling
  | short
  | long
  deriving DecidableEq

def Opt.key (o : Opt) : Spelling → Word
  | .short => o.short
  | .long => o.long

/-- The word asks for help. -/
def AsksHelp (key : Word) : Prop := "-h".toList <+: key ∨ key = "--help".toList

instance (key : Word) : Decidable (AsksHelp key) := inferInstanceAs (Decidable (_ ∨ _))

/-- The word is no option. -/
def Plain (word : Word) : Prop :=
  ¬ AsksHelp word ∧ ∀ o : Opt, ¬ o.short <+: word ∧ word ≠ o.long ∧ ¬ o.equals <+: word

theorem Opt.forall_iff {P : Opt → Prop} : (∀ o, P o) ↔ P .fabricVersion ∧ P .caVersion :=
  ⟨fun h => ⟨h _, h _⟩, fun h o => by cases o; exacts [h.1, h.2]⟩

instance (word : Word) : Decidable (Plain word) :=
  decidable_of_iff _ (and_congr_right' Opt.forall_iff).symm

/-- An option with its value, or a component. -/
inductive Item
  | separate (o : Opt) (spelling : Spelling) (value : Word)
  | equals (o : Opt) (value : Word)
  | glued (o : Opt) (value : Word)
  | component (word : Word)
  deriving DecidableEq

namespace Item

def words : Item → List Word
  | separate o spelling value => [o.key spelling, value]
  | equals o value => [o.equals ++ value]
  | glued o value => [o.short ++ value]
  | component word => [word]

/-- A value glued to its option is not empty, and a component is no option. -/
def WellFormed : Item → Prop
  | glued _ value => value ≠ []
  | component word => Plain word
  | _ => True

instance : (item : Item) → Decidable item.WellFormed
  | glued _ value => inferInstanceAs (Decidable (value ≠ []))
  | component word => inferInstanceAs (Decidable (Plain word))
  | separate _ _ _ => .isTrue trivial
  | equals _ _ => .isTrue trivial

/-- The value that the item gives to an option. -/
def value? (o : Opt) : Item → Option Word
  | separate o' _ value => if o' = o then some value else none
  | equals o' value => if o' = o then some value else none
  | glued o' value => if o' = o then some value else none
  | component _ => none

def component? : Item → Option Word
  | component word => some word
  | _ => none

end Item

/-- How a command line ends. -/
inductive Ending
  | complete
  /-- With a word that asks for help, and anything after it. -/
  | help (key : Word) (rest : List Word)
  /-- With an option that lacks its value. -/
  | missing (o : Opt) (spelling : Spelling)
  deriving DecidableEq

namespace Ending

def words : Ending → List Word
  | complete => []
  | help key rest => key :: rest
  | missing o spelling => [o.key spelling]

def WellFormed : Ending → Prop
  | help key _ => AsksHelp key
  | _ => True

end Ending

/-- A command line. -/
structure CommandLine where
  items : List Item
  ending : Ending
  items_wellFormed : ∀ item ∈ items, item.WellFormed
  ending_wellFormed : ending.WellFormed

namespace CommandLine

/-- The arguments that the line is written as. -/
def words (l : CommandLine) : List Word := l.items.flatMap Item.words ++ l.ending.words

/-- The last value given for an option. -/
def version (l : CommandLine) (o : Opt) : Option Word :=
  (l.items.filterMap (Item.value? o)).getLast?

def components (l : CommandLine) : List Word := l.items.filterMap Item.component?

/-- What the line means: the values it leaves, or how the script ends. -/
def meaning (l : CommandLine) (a : Arguments) : Except Exit Arguments :=
  match l.ending with
  | .complete => .ok
    { fabricVersion := (l.version .fabricVersion).getD a.fabricVersion
      caVersion := (l.version .caVersion).getD a.caVersion
      positionals := a.positionals ++ l.components }
  | .help _ _ => .error .help
  | .missing o spelling => .error (missingValue (o.key spelling))

end CommandLine

/-! ### The arms -/

section Arms

theorem arm_key (o : Opt) (spelling : Spelling) : arm (o.key spelling) = .value o := by
  cases o <;> cases spelling <;> decide

theorem arm_equals (o : Opt) (value : Word) : arm (o.equals ++ value) = .equals o := by
  cases o with
  | fabricVersion =>
    have hvalue : ¬ ("--fabric-version=".toList ++ value = "-f".toList ∨
        "--fabric-version=".toList ++ value = "--fabric-version".toList) := by simp
    unfold arm Opt.equals
    rw [if_neg hvalue, if_pos (List.prefix_append _ _)]
  | caVersion =>
    have hfabric : ¬ ("--ca-version=".toList ++ value = "-f".toList ∨
        "--ca-version=".toList ++ value = "--fabric-version".toList) := by simp
    have hequals : ¬ "--fabric-version=".toList <+: "--ca-version=".toList ++ value := by simp
    have hglued : ¬ "-f".toList <+: "--ca-version=".toList ++ value := by simp
    have hvalue : ¬ ("--ca-version=".toList ++ value = "-c".toList ∨
        "--ca-version=".toList ++ value = "--ca-version".toList) := by simp
    have hhelp : ¬ ("--ca-version=".toList ++ value = "-h".toList ∨
        "--ca-version=".toList ++ value = "--help".toList) := by simp
    have hhelp' : ¬ "-h".toList <+: "--ca-version=".toList ++ value := by simp
    unfold arm Opt.equals
    rw [if_neg hfabric, if_neg hequals, if_neg hglued, if_neg hvalue, if_neg hhelp, if_neg hhelp',
      if_pos (List.prefix_append _ _)]

theorem arm_glued (o : Opt) {value : Word} (h : value ≠ []) :
    arm (o.short ++ value) = .glued o := by
  cases o with
  | fabricVersion =>
    have hvalue : ¬ ("-f".toList ++ value = "-f".toList ∨
        "-f".toList ++ value = "--fabric-version".toList) := by simp [h]
    have hequals : ¬ "--fabric-version=".toList <+: "-f".toList ++ value := by simp
    unfold arm Opt.short
    rw [if_neg hvalue, if_neg hequals, if_pos (List.prefix_append _ _)]
  | caVersion =>
    have hfabric : ¬ ("-c".toList ++ value = "-f".toList ∨
        "-c".toList ++ value = "--fabric-version".toList) := by simp
    have hfabric' : ¬ "--fabric-version=".toList <+: "-c".toList ++ value := by simp
    have hshort : ¬ "-f".toList <+: "-c".toList ++ value := by simp
    have hvalue : ¬ ("-c".toList ++ value = "-c".toList ∨
        "-c".toList ++ value = "--ca-version".toList) := by simp [h]
    have hhelp : ¬ ("-c".toList ++ value = "-h".toList ∨
        "-c".toList ++ value = "--help".toList) := by simp
    have hhelp' : ¬ "-h".toList <+: "-c".toList ++ value := by simp
    have hequals : ¬ "--ca-version=".toList <+: "-c".toList ++ value := by simp
    unfold arm Opt.short
    rw [if_neg hfabric, if_neg hfabric', if_neg hshort, if_neg hvalue, if_neg hhelp, if_neg hhelp',
      if_neg hequals, if_pos (List.prefix_append _ _)]

theorem arm_help {key : Word} (h : AsksHelp key) : arm key = .help := by
  rcases h with ⟨rest, rfl⟩ | rfl
  · simp [arm]
  · decide

theorem arm_plain {word : Word} (h : Plain word) : arm word = .positional := by
  obtain ⟨hhelp, hopt⟩ := h
  obtain ⟨hhelp, hhelp'⟩ := not_or.1 hhelp
  obtain ⟨hf, hflong, hfequals⟩ : ¬ "-f".toList <+: word ∧ word ≠ "--fabric-version".toList ∧
      ¬ "--fabric-version=".toList <+: word := hopt .fabricVersion
  obtain ⟨hc, hclong, hcequals⟩ : ¬ "-c".toList <+: word ∧ word ≠ "--ca-version".toList ∧
      ¬ "--ca-version=".toList <+: word := hopt .caVersion
  have hne : ∀ front : Word, ¬ front <+: word → word ≠ front := by
    rintro front hfront rfl
    exact hfront (List.prefix_refl _)
  unfold arm
  rw [if_neg (not_or.2 ⟨hne _ hf, hflong⟩), if_neg hfequals, if_neg hf,
    if_neg (not_or.2 ⟨hne _ hc, hclong⟩), if_neg (not_or.2 ⟨hne _ hhelp, hhelp'⟩),
    if_neg hhelp, if_neg hcequals, if_neg hc]

/-- Every word is an option on its own, an option with a value, a call for help, or plain. -/
theorem arm_cases (key : Word) :
    (∃ (o : Opt) (spelling : Spelling), key = o.key spelling) ∨
      (∃ (o : Opt) (value : Word), key = o.equals ++ value) ∨
      (∃ (o : Opt) (value : Word), value ≠ [] ∧ key = o.short ++ value) ∨
      AsksHelp key ∨ Plain key := by
  by_cases hhelp : AsksHelp key
  · exact .inr (.inr (.inr (.inl hhelp)))
  by_cases hopt : ∀ o : Opt, ¬ o.short <+: key ∧ key ≠ o.long ∧ ¬ o.equals <+: key
  · exact .inr (.inr (.inr (.inr ⟨hhelp, hopt⟩)))
  obtain ⟨o, ho⟩ := not_forall.1 hopt
  by_cases hshort : o.short <+: key
  · obtain ⟨value, rfl⟩ := hshort
    by_cases hvalue : value = []
    · exact .inl ⟨o, .short, by simp [Opt.key, hvalue]⟩
    · exact .inr (.inr (.inl ⟨o, value, hvalue, rfl⟩))
  by_cases hlong : key = o.long
  · exact .inl ⟨o, .long, hlong⟩
  · have hequals : o.equals <+: key := not_not.1 fun h => ho ⟨hshort, hlong, h⟩
    obtain ⟨value, rfl⟩ := hequals
    exact .inr (.inl ⟨o, value, rfl⟩)

end Arms

/-! ### The reading of a list of arguments -/

/-- The spelling of an option. -/
def spelling (o : Opt) (key : Word) : Spelling := if key = o.short then .short else .long

/-- The items and the ending that a list of arguments is made of. -/
def read : List Word → List Item × Ending
  | [] => ([], .complete)
  | key :: rest =>
    match arm key with
    | .value o =>
      match rest with
      | [] => ([], .missing o (spelling o key))
      | value :: rest => (.separate o (spelling o key) value :: (read rest).1, (read rest).2)
    | .equals o => (.equals o (cutFront o.equals key) :: (read rest).1, (read rest).2)
    | .glued o => (.glued o (cutFront o.short key) :: (read rest).1, (read rest).2)
    | .help => ([], .help key rest)
    | .positional => (.component key :: (read rest).1, (read rest).2)

section Read

theorem spelling_key (o : Opt) (s : Spelling) : spelling o (o.key s) = s := by
  cases o <;> cases s <;> decide

theorem cutFront_append (front value : Word) : cutFront front (front ++ value) = value :=
  List.drop_left

/-- An item is read as it was written, whatever follows. -/
theorem read_item {item : Item} (h : item.WellFormed) (rest : List Word) :
    read (item.words ++ rest) = (item :: (read rest).1, (read rest).2) := by
  cases item with
  | separate o spelling value =>
    show read (o.key spelling :: value :: rest) = _
    rw [read, arm_key]
    simp only [spelling_key]
  | equals o value =>
    show read ((o.equals ++ value) :: rest) = _
    rw [read, arm_equals]
    simp only [cutFront_append]
  | glued o value =>
    show read ((o.short ++ value) :: rest) = _
    rw [read, arm_glued o h]
    simp only [cutFront_append]
  | component word =>
    show read (word :: rest) = _
    rw [read, arm_plain h]

theorem read_ending {ending : Ending} (h : ending.WellFormed) :
    read ending.words = ([], ending) := by
  cases ending with
  | complete => rfl
  | help key rest =>
    show read (key :: rest) = _
    rw [read, arm_help h]
  | missing o spelling =>
    show read [o.key spelling] = _
    rw [read, arm_key]
    simp only [spelling_key]

/-- A command line is read as it was written. -/
theorem read_words (l : CommandLine) : read l.words = (l.items, l.ending) := by
  obtain ⟨items, ending, hitems, hending⟩ := l
  unfold CommandLine.words
  induction items with
  | nil => exact read_ending hending
  | cons item items ih =>
    obtain ⟨hitem, hitems⟩ := List.forall_mem_cons.1 hitems
    rw [List.flatMap_cons, List.append_assoc, read_item hitem, ih hitems]

theorem words_injective : Function.Injective CommandLine.words := by
  intro l l' h
  have hread : (l.items, l.ending) = (l'.items, l'.ending) := by
    rw [← read_words, ← read_words, h]
  obtain ⟨items, ending, hitems, hending⟩ := l
  obtain ⟨items', ending', hitems', hending'⟩ := l'
  obtain ⟨rfl, rfl⟩ := Prod.mk.inj hread
  rfl

/-- A line that begins with an item. -/
def CommandLine.cons (item : Item) (h : item.WellFormed) (l : CommandLine) : CommandLine where
  items := item :: l.items
  ending := l.ending
  items_wellFormed := List.forall_mem_cons.2 ⟨h, l.items_wellFormed⟩
  ending_wellFormed := l.ending_wellFormed

theorem CommandLine.words_cons (item : Item) (h : item.WellFormed) (l : CommandLine) :
    (CommandLine.cons item h l).words = item.words ++ l.words := by
  simp [CommandLine.words, CommandLine.cons]

/-- A line of the ending alone. -/
def CommandLine.ofEnding (ending : Ending) (h : ending.WellFormed) : CommandLine :=
  ⟨[], ending, fun _ hmem => (nomatch hmem), h⟩

/-- Every list of arguments is a command line. -/
theorem exists_words (args : List Word) : ∃ l : CommandLine, l.words = args := by
  -- An option with its value takes two arguments, so the induction is on their number.
  induction hn : args.length using Nat.strong_induction_on generalizing args with
  | _ n ih =>
    subst hn
    have hitem : ∀ (item : Item) (rest : List Word), item.WellFormed → args = item.words ++ rest →
        rest.length < args.length → ∃ l : CommandLine, l.words = args := by
      intro item rest hwf hargs hlt
      obtain ⟨l, hl⟩ := ih _ hlt rest rfl
      exact ⟨.cons item hwf l, by rw [CommandLine.words_cons, hl, hargs]⟩
    cases args with
    | nil => exact ⟨.ofEnding .complete trivial, rfl⟩
    | cons key rest =>
      rcases arm_cases key with ⟨o, spelling, rfl⟩ | ⟨o, value, rfl⟩ | ⟨o, value, hvalue, rfl⟩ |
        hhelp | hplain
      · cases rest with
        | nil => exact ⟨.ofEnding (.missing o spelling) trivial, rfl⟩
        | cons value rest =>
          exact hitem (.separate o spelling value) rest trivial rfl (by simp)
      · exact hitem (.equals o value) rest trivial rfl (Nat.lt_succ_self _)
      · exact hitem (.glued o value) rest hvalue rfl (Nat.lt_succ_self _)
      · exact ⟨.ofEnding (.help key rest) hhelp, rfl⟩
      · exact hitem (.component key) rest hplain rfl (Nat.lt_succ_self _)

end Read

/-! ### What the loop returns -/

section Meaning

def Item.apply (a : Arguments) : Item → Arguments
  | .separate o _ value => a.set o value
  | .equals o value => a.set o value
  | .glued o value => a.set o value
  | .component word => { a with positionals := a.positionals ++ [word] }

def Ending.result (a : Arguments) : Ending → Except Exit Arguments
  | .complete => .ok a
  | .help _ _ => .error .help
  | .missing o spelling => .error (missingValue (o.key spelling))

/-- The loop works off an item, whatever follows. -/
theorem parseCommandline_item {item : Item} (h : item.WellFormed) (a : Arguments)
    (rest : List Word) :
    parseCommandline a (item.words ++ rest) = parseCommandline (item.apply a) rest := by
  cases item with
  | separate o spelling value =>
    show parseCommandline a (o.key spelling :: value :: rest) = _
    rw [parseCommandline, arm_key]
    rfl
  | equals o value =>
    show parseCommandline a ((o.equals ++ value) :: rest) = _
    rw [parseCommandline, arm_equals]
    simp only [cutFront_append]
    rfl
  | glued o value =>
    show parseCommandline a ((o.short ++ value) :: rest) = _
    rw [parseCommandline, arm_glued o h]
    simp only [cutFront_append]
    rfl
  | component word =>
    show parseCommandline a (word :: rest) = _
    rw [parseCommandline, arm_plain h]
    rfl

theorem parseCommandline_ending {ending : Ending} (h : ending.WellFormed) (a : Arguments) :
    parseCommandline a ending.words = ending.result a := by
  cases ending with
  | complete => rfl
  | help key rest =>
    show parseCommandline a (key :: rest) = _
    rw [parseCommandline, arm_help h]
    rfl
  | missing o spelling =>
    show parseCommandline a [o.key spelling] = _
    rw [parseCommandline, arm_key]
    rfl

theorem parseCommandline_words (l : CommandLine) (a : Arguments) :
    parseCommandline a l.words = l.ending.result (l.items.foldl Item.apply a) := by
  obtain ⟨items, ending, hitems, hending⟩ := l
  unfold CommandLine.words
  induction items generalizing a with
  | nil => exact parseCommandline_ending hending a
  | cons item items ih =>
    obtain ⟨hitem, hitems⟩ := List.forall_mem_cons.1 hitems
    rw [List.flatMap_cons, List.append_assoc, parseCommandline_item hitem]
    exact ih (item.apply a) hitems

/-- An item is a component, or it gives a value to one option. -/
theorem Item.apply_cases (item : Item) :
    (∃ word, item = .component word) ∨
      ∃ o value, (∀ a, item.apply a = a.set o value) ∧
        (∀ o', item.value? o' = if o = o' then some value else none) ∧ item.component? = none := by
  cases item with
  | component word => exact .inl ⟨word, rfl⟩
  | separate o spelling value => exact .inr ⟨o, value, fun _ => rfl, fun _ => rfl, rfl⟩
  | equals o value => exact .inr ⟨o, value, fun _ => rfl, fun _ => rfl, rfl⟩
  | glued o value => exact .inr ⟨o, value, fun _ => rfl, fun _ => rfl, rfl⟩

/-- The last value given for a version counts, and the components are collected in order. -/
theorem foldl_apply (items : List Item) (a : Arguments) :
    items.foldl Item.apply a =
      { fabricVersion :=
          ((items.filterMap (Item.value? .fabricVersion)).getLast?).getD a.fabricVersion
        caVersion := ((items.filterMap (Item.value? .caVersion)).getLast?).getD a.caVersion
        positionals := a.positionals ++ items.filterMap Item.component? } := by
  induction items generalizing a with
  | nil => simp
  | cons item items ih =>
    rw [List.foldl_cons, ih]
    rcases item.apply_cases with ⟨word, rfl⟩ | ⟨o, value, happly, hvalue, hcomponent⟩
    · simp [Item.apply, Item.value?, Item.component?]
    · rw [happly, List.filterMap_cons_none hcomponent]
      cases o <;> simp [Arguments.set, hvalue, List.getLast?_cons]

theorem parseCommandline_meaning (l : CommandLine) (a : Arguments) :
    parseCommandline a l.words = l.meaning a := by
  rw [parseCommandline_words, foldl_apply]
  obtain ⟨items, ending, hitems, hending⟩ := l
  cases ending <;> rfl

/-- **Every list of arguments has exactly one reading.**  It is the text of one command line and of
no other, and `parse_commandline` returns what that line means: a call for help ends the script
where no value is due, an option without a value ends it at the end of the line, and otherwise the
last value given for each version counts and the components are collected in order. -/
theorem parse_commandline (args : List Word) :
    (∃! l : CommandLine, l.words = args) ∧
      ∀ l : CommandLine, l.words = args → ∀ a, parseCommandline a args = l.meaning a := by
  obtain ⟨l, hl⟩ := exists_words args
  refine ⟨⟨l, hl, fun l' hl' => words_injective (hl'.trans hl.symm)⟩, ?_⟩
  rintro l' rfl a
  exact parseCommandline_meaning l' a

/-- The value of an option may look like an option, and other words with hyphens are components. -/
example : parseCommandline .default ["-f".toList, "-h".toList, "--debug".toList, "-c1.5".toList] =
    .ok ⟨"-h".toList, "1.5".toList, ["--debug".toList]⟩ := rfl

end Meaning

end Install
