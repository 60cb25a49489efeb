import Mathlib.Data.List.Forall2
import Mathlib.Data.Nat.Digits.Defs
import StoryLex.Proofs.Assignments

/-!
# StoryLex — what a command line means

The arguments of a command line are read one item at a time: an item takes one
argument or two, the second of which is never looked at as a first, and what the
items do to the settings is done before a later one turns out to be wrong. What
is accepted, and what comes of it, is told here without the reader
(`commandLine_items`).

* `Item.Spelled` is the grammar: the arguments that stand for an item.
* `Reads` cuts arguments into items as far as that goes. There is one way to do
  that (`exists_reads`, `Reads.unique`), and the reader takes it
  (`Reads.readAll_eq`). It comes to the end exactly if it meets no error.
* What the items add up to is read off them: a flag is up if it is one of them
  (`RunOptions.has_foldl`), the last offset and the last path count
  (`IsLast.foldl`), and the settings are changed by three of them
  (`Settings.foldl_take`).
-/

namespace StoryLex

-- ---------------------------------------------------------------------------
-- Numbers
-- ---------------------------------------------------------------------------

/-- The text is made of digits, and its value in decimal is the number. Zeros in
front do no harm. -/
def Writes (text : Bytes) (n : Nat) : Prop :=
  text ≠ [] ∧ (∀ b ∈ text, isDigit b = true) ∧
    n = Nat.ofDigits 10 (text.map fun b => b.toNat - (byte '0').toNat).reverse

/-- A text is read as the number that it writes in decimal, and as none if it
writes none. -/
theorem decimal?_eq_some_iff {text : Bytes} {n : Nat} : decimal? text = some n ↔ Writes text n := by
  -- reading from the left, as the code does, is the value of the digits from the right
  have hvalue : text.foldl (fun n b => 10 * n + (b.toNat - (byte '0').toNat)) 0 =
      Nat.ofDigits 10 (text.map fun b => b.toNat - (byte '0').toNat).reverse := by
    rw [Nat.ofDigits_eq_foldr, List.foldr_reverse, List.foldl_map]
    congr 1
    funext n b
    exact Nat.add_comm _ _
  rw [decimal?, hvalue, Writes]
  constructor
  · intro h
    split at h
    · next hdigits =>
      rw [Bool.and_eq_true, List.all_eq_true] at hdigits
      exact ⟨by simpa using hdigits.1, hdigits.2, (Option.some.inj h).symm⟩
    · cases h
  · rintro ⟨hne, hdigits, rfl⟩
    rw [if_pos]
    rw [Bool.and_eq_true, List.all_eq_true]
    exact ⟨by simpa using hne, hdigits⟩

/-- An offset is a number that fits into 64 bits. -/
theorem Item.offset?_eq_some_iff {value : Bytes} {n : Nat} :
    offset? value = some n ↔ Writes value n ∧ n ≤ 2 ^ 64 - 1 := by
  have hbound : n < UInt64.size ↔ n ≤ 2 ^ 64 - 1 := by
    rw [show UInt64.size = 2 ^ 64 from rfl]
    omega
  rw [offset?, Option.filter_eq_some_iff, decimal?_eq_some_iff, decide_eq_true_eq, hbound]

-- ---------------------------------------------------------------------------
-- The grammar
-- ---------------------------------------------------------------------------

/-- The arguments that put a flag up. -/
def Flag.words : Flag → List Bytes
  | help => [ascii "--help", ascii "-h"]
  | highlight => [ascii "--highlight"]
  | strict => [ascii "--strict"]
  | verbose => [ascii "--verbose", ascii "-v"]

/-- The arguments that stand for an item. -/
inductive Item.Spelled : Item → List Bytes → Prop where
  | flag {f : Flag} {word : Bytes} (hword : word ∈ f.words) : Spelled (.flag f) [word]
  | change (o : Override) : Spelled (.change o.change) [o.flag]
  | offset {value : Bytes} {n : Nat} (hvalue : Writes value n) (hbound : n ≤ 2 ^ 64 - 1) :
      Spelled (.offset n) [ascii "--offset", value]
  | path {p : Bytes} (hpath : p.length ≤ 1 ∨ p.head? ≠ some (byte '-')) : Spelled (.path p) [p]

/-- What an error says of the arguments that it stops at: an offset without its
value, one with a value that is none, or an argument that is no item. -/
inductive UsageError.About : UsageError → List Bytes → Prop where
  | missingOffset : About .missingOffset [ascii "--offset"]
  | badOffset (value : Bytes) (rest : List Bytes) :
      About (.badOffset value) (ascii "--offset" :: value :: rest)
  | unknownOption {argument : Bytes} (hoption : argument ≠ ascii "--offset") (rest : List Bytes) :
      About (.unknownOption argument) (argument :: rest)

/-- The arguments are these items one after the other, and then a rest that is
empty or begins with no item. -/
def Reads (items : List Item) (arguments rest : List Bytes) : Prop :=
  ∃ pieces, List.Forall₂ Item.Spelled items pieces ∧ arguments = pieces.flatten ++ rest ∧
    ∀ (item : Item) (piece : List Bytes), item.Spelled piece → ¬ piece <+: rest

variable {item : Item} {items : List Item} {argument : Bytes}
  {arguments piece rest : List Bytes}

namespace Item

/-- What is looked up among the options is spelled as it is there. -/
theorem spelled_of_mem_options {o : String × Item} (h : o ∈ options) :
    o.2.Spelled [ascii o.1] := by
  simp only [options, List.mem_cons, List.not_mem_nil, or_false] at h
  rcases h with rfl | rfl | rfl | rfl | rfl | rfl | rfl | rfl | rfl
  · exact .flag (by decide)
  · exact .flag (by decide)
  · exact .flag (by decide)
  · exact .change .diagnostics
  · exact .flag (by decide)
  · exact .change .legacy
  · exact .change .noColor
  · exact .flag (by decide)
  · exact .flag (by decide)

/-- What a single argument is taken for is spelled by it. -/
theorem ofArgument?_spelled (h : ofArgument? argument = some item) : item.Spelled [argument] := by
  unfold ofArgument? at h
  split at h
  · -- one of the options
    next o ho =>
    cases h
    obtain rfl : ascii o.1 = argument := by simpa using List.find?_some ho
    exact spelled_of_mem_options (List.mem_of_find?_eq_some ho)
  · split at h
    · cases h
    · -- a path, which is no dash with more behind it
      next hpath =>
      cases h
      rw [Bool.and_eq_true, decide_eq_true_eq, decide_eq_true_eq,
        Classical.not_and_iff_not_or_not, Nat.not_lt] at hpath
      exact .path hpath

/-- Each word for a flag is taken for that flag. -/
theorem ofArgument?_word {f : Flag} (h : argument ∈ f.words) :
    argument ≠ offsetOption ∧ ofArgument? argument = some (.flag f) := by
  have hall : ∀ w ∈ f.words, w ≠ offsetOption ∧ ofArgument? w = some (.flag f) := by
    cases f <;> decide
  exact hall argument h

/-- Every option starts with a dash, and the dash is not all of it. -/
theorem ofArgument?_path (h : argument.length ≤ 1 ∨ argument.head? ≠ some (byte '-')) :
    argument ≠ offsetOption ∧ ofArgument? argument = some (.path argument) := by
  have hdash : ¬ (1 < argument.length ∧ argument.head? = some (byte '-')) := by
    rwa [Classical.not_and_iff_not_or_not, Nat.not_lt]
  have hoptions : ∀ o ∈ options, 1 < (ascii o.1).length ∧
      (ascii o.1).head? = some (byte '-') := by decide
  -- so it is looked up among the options in vain
  have hnone : (options.find? fun o => ascii o.1 == argument) = none := by
    rw [List.find?_eq_none]
    intro o ho heq
    exact hdash (beq_iff_eq.mp heq ▸ hoptions o ho)
  refine ⟨?_, ?_⟩
  · rintro rfl
    exact hdash (by decide)
  · simp only [ofArgument?, hnone]
    rw [if_neg (by simpa using hdash)]

/-- An item is read first where its arguments stand first. -/
theorem Spelled.readAll_append (h : item.Spelled piece) (arguments : List Bytes) :
    readAll (piece ++ arguments) = (item :: (readAll arguments).1, (readAll arguments).2) := by
  cases h with
  | flag hword =>
    obtain ⟨hoption, hitem⟩ := ofArgument?_word hword
    exact readAll_cons hoption hitem arguments
  | change o => exact readAll_cons o.flag_ne_offsetOption o.ofArgument?_flag arguments
  | path hpath =>
    obtain ⟨hoption, hitem⟩ := ofArgument?_path hpath
    exact readAll_cons hoption hitem arguments
  | @offset value n hvalue hbound =>
    show readAll (offsetOption :: value :: arguments) = _
    rw [readAll.eq_def]
    simp only [if_true, offset?_eq_some_iff.mpr ⟨hvalue, hbound⟩]

/-- Where no item stands first, none is read; and that is an error, unless there
are no arguments left. -/
theorem readAll_stuck
    (h : ∀ (item : Item) (piece : List Bytes), item.Spelled piece → ¬ piece <+: arguments) :
    (arguments = [] ∧ readAll arguments = ([], none)) ∨
      ∃ e : UsageError, e.About arguments ∧ readAll arguments = ([], some e) := by
  unfold readAll
  split
  · exact Or.inl ⟨rfl, rfl⟩
  · next argument rest =>
    right
    split
    · -- an offset; with a value behind it that is one, it would be an item
      next hoption =>
      subst hoption
      split
      · exact ⟨_, .missingOffset, rfl⟩
      · next value rest =>
        split
        · exact ⟨_, .badOffset value rest, rfl⟩
        · next n hn =>
          obtain ⟨hvalue, hbound⟩ := offset?_eq_some_iff.mp hn
          exact absurd (List.prefix_append [offsetOption, value] rest)
            (h _ _ (.offset hvalue hbound))
    · next hoption =>
      split
      · exact ⟨_, .unknownOption hoption rest, rfl⟩
      · next item hitem =>
        exact absurd (List.prefix_append [argument] rest) (h _ _ (ofArgument?_spelled hitem))

/-- The number of arguments that an item takes. -/
def width : Item → Nat
  | .offset _ => 2
  | _ => 1

theorem width_pos (item : Item) : 0 < item.width := by
  cases item <;> exact Nat.zero_lt_succ _

/-- An item takes as many arguments as it is wide, however it is spelled. -/
theorem Spelled.length_eq (h : item.Spelled piece) : piece.length = item.width := by
  cases h <;> rfl

theorem Spelled.ne_nil (h : item.Spelled piece) : piece ≠ [] := by
  rw [← List.length_pos_iff, h.length_eq]
  exact item.width_pos

/-- The same items take as many arguments, however they are spelled. -/
theorem length_flatten {pieces : List (List Bytes)} (h : List.Forall₂ Spelled items pieces) :
    pieces.flatten.length = (items.map width).sum := by
  induction h with
  | nil => rfl
  | cons hitem _ ih =>
    rw [List.flatten_cons, List.length_append, hitem.length_eq, ih, List.map_cons, List.sum_cons]

end Item

-- ---------------------------------------------------------------------------
-- Reading is cutting into items
-- ---------------------------------------------------------------------------

/-- Arguments can be cut into items as far as that goes. -/
theorem exists_reads (arguments : List Bytes) : ∃ items rest, Reads items arguments rest := by
  induction hlength : arguments.length using Nat.strong_induction_on generalizing arguments with
  | _ length ih =>
    -- cut off the first item, if there is one, and go on with fewer arguments
    by_cases hfirst : ∃ item piece, Item.Spelled item piece ∧ piece <+: arguments
    · obtain ⟨item, piece, hitem, back, rfl⟩ := hfirst
      have hshorter : back.length < length := by
        have hpos := item.width_pos
        rw [← hlength, List.length_append, hitem.length_eq]
        omega
      obtain ⟨items, rest, pieces, hpieces, rfl, hrest⟩ := ih _ hshorter back rfl
      refine ⟨item :: items, rest, piece :: pieces, .cons hitem hpieces, ?_, hrest⟩
      rw [List.flatten_cons, List.append_assoc]
    · refine ⟨[], arguments, [], .nil, rfl, fun item piece hitem hprefix => ?_⟩
      exact hfirst ⟨item, piece, hitem, hprefix⟩

/-- Arguments that are items and nothing else are read to their end. -/
theorem reads_flatten {pieces : List (List Bytes)} (h : List.Forall₂ Item.Spelled items pieces) :
    Reads items pieces.flatten [] :=
  ⟨pieces, h, (List.append_nil _).symm, fun _ _ hitem hprefix =>
    hitem.ne_nil (List.prefix_nil.mp hprefix)⟩

namespace Reads

/-- The items are those that are read, and what is left is left by an error. -/
theorem readAll_eq (h : Reads items arguments rest) :
    (rest = [] ∧ Item.readAll arguments = (items, none)) ∨
      ∃ e : UsageError, e.About rest ∧ Item.readAll arguments = (items, some e) := by
  obtain ⟨pieces, hpieces, rfl, hrest⟩ := h
  induction hpieces with
  | nil => exact Item.readAll_stuck hrest
  | cons hitem _ ih =>
    rw [List.flatten_cons, List.append_assoc, hitem.readAll_append]
    rcases ih with ⟨hend, hread⟩ | ⟨e, habout, hread⟩
    · exact Or.inl ⟨hend, by rw [hread]⟩
    · exact Or.inr ⟨e, habout, by rw [hread]⟩

/-- The items of a cut are those that are read. -/
theorem items_eq (h : Reads items arguments rest) : (Item.readAll arguments).1 = items := by
  rcases h.readAll_eq with ⟨-, hread⟩ | ⟨e, -, hread⟩ <;> rw [hread]

/-- Arguments can be cut in one way only. -/
theorem unique {items' : List Item} {rest' : List Bytes} (h : Reads items arguments rest)
    (h' : Reads items' arguments rest') : items' = items ∧ rest' = rest := by
  obtain rfl : items' = items := h'.items_eq.symm.trans h.items_eq
  refine ⟨rfl, ?_⟩
  -- the items are the ones read, so both cuts are of the same length
  obtain ⟨pieces, hpieces, rfl, -⟩ := h
  obtain ⟨pieces', hpieces', heq, -⟩ := h'
  have hlength : pieces.flatten.length = pieces'.flatten.length :=
    (Item.length_flatten hpieces).trans (Item.length_flatten hpieces').symm
  exact (List.append_inj heq hlength).2.symm

/-- Each item is spelled by some of the arguments. -/
theorem spelled (h : Reads items arguments rest) :
    ∀ item ∈ items, ∃ piece, item.Spelled piece := by
  obtain ⟨pieces, hpieces, -⟩ := h
  intro item hitem
  induction hpieces with
  | nil => simp at hitem
  | @cons item' piece items pieces hspelled _ ih =>
    rcases List.mem_cons.mp hitem with rfl | hitem
    · exact ⟨piece, hspelled⟩
    · exact ih hitem

end Reads

-- ---------------------------------------------------------------------------
-- What the items add up to
-- ---------------------------------------------------------------------------

namespace RunOptions

/-- Whether a flag is up. -/
def has (options : RunOptions) : Flag → Bool
  | .help => options.help
  | .highlight => options.highlight
  | .strict => options.strict
  | .verbose => options.verbose

/-- An item puts up its own flag and takes none down. -/
theorem has_take (options : RunOptions) (item : Item) (f : Flag) :
    (options.take item).has f = true ↔ .flag f = item ∨ options.has f = true := by
  cases item with
  | flag f' => cases f <;> cases f' <;> simp [take, has]
  | change a => simp [take]
  | offset n => cases f <;> simp [take, has]
  | path p => cases f <;> simp [take, has]

/-- A flag that is put up stays up. -/
theorem has_foldl (items : List Item) (options : RunOptions) (f : Flag) :
    (items.foldl take options).has f = true ↔ .flag f ∈ items ∨ options.has f = true := by
  induction items generalizing options with
  | nil => simp
  | cons item items ih => rw [List.foldl_cons, ih, has_take, List.mem_cons, or_left_comm, or_assoc]

/-- The last offset counts. -/
theorem offset_foldl (items : List Item) (options : RunOptions) :
    IsLast (fun item n => item = .offset n) items options.offset
      (items.foldl take options).offset := by
  refine IsLast.foldl offset take ?_ ?_ items options
  · rintro options _ n rfl
    rfl
  · -- no other item touches the offset
    intro options item hnone
    rcases item with (_ | _ | _ | _) | a | n | p
    case offset => exact absurd rfl (hnone n)
    all_goals rfl

/-- The last path counts. -/
theorem path_foldl (items : List Item) (options : RunOptions) :
    IsLast (fun item p => item = .path p) items options.path (items.foldl take options).path := by
  refine IsLast.foldl path take ?_ ?_ items options
  · rintro options _ p rfl
    rfl
  · -- no other item touches the path
    intro options item hnone
    rcases item with (_ | _ | _ | _) | a | n | p
    case path => exact absurd rfl (hnone p)
    all_goals rfl

end RunOptions

namespace Settings

/-- The settings with the changes that some flags make. -/
def overridden (settings : Settings) (given : Override → Bool) : Settings :=
  { settings with
    legacyIdentifiers := if given .legacy then true else settings.legacyIdentifiers
    showDiagnostics := if given .diagnostics then true else settings.showDiagnostics
    color := if given .noColor then false else settings.color }

/-- Of the items that can be spelled, three change the settings, each one switch
of them and always the same way. -/
theorem foldl_take (hspelled : ∀ item ∈ items, ∃ piece, item.Spelled piece) (settings : Settings) :
    items.foldl take settings = settings.overridden fun o => items.contains (.change o.change) := by
  induction items generalizing settings with
  | nil => simp [overridden]
  | cons item items ih =>
    rw [List.foldl_cons, ih fun item h => hspelled item (List.mem_cons_of_mem _ h)]
    obtain ⟨piece, hitem⟩ := hspelled item List.mem_cons_self
    cases hitem with
    | flag _ => simp [take, overridden]
    | offset _ _ => simp [take, overridden]
    | path _ => simp [take, overridden]
    | change o => cases o <;> simp [take, assign, overridden, Override.change]

end Settings

-- ---------------------------------------------------------------------------
-- Command lines
-- ---------------------------------------------------------------------------

/-- No error goes without saying something. -/
theorem UsageError.message_ne_nil (e : UsageError) : e.message ≠ [] := by
  have hhead : e.message.head? = some (byte '[') := by cases e <;> rfl
  intro h
  simp [h] at hhead

namespace CommandLine

/-- What is said about the command line while it is read. -/
def written (line : CommandLine) : Bytes :=
  match line.options with
  | .ok _ => []
  | .error e => e.message

variable (settings : Settings)

/-- The changes of the items that were read are made, whatever follows them. -/
theorem read_settings (h : Reads items arguments rest) :
    (read arguments settings).settings =
      settings.overridden fun o => items.contains (.change o.change) := by
  rw [← Settings.foldl_take h.spelled, ← h.items_eq]
  rfl

/-- A command line comes to its items' options, or to an error about what is
left of it. -/
theorem read_options (h : Reads items arguments rest) :
    (rest = [] ∧ (read arguments settings).options = .ok (items.foldl RunOptions.take {})) ∨
      ∃ e : UsageError, e.About rest ∧ (read arguments settings).options = .error e := by
  rcases h.readAll_eq with ⟨hend, hread⟩ | ⟨e, habout, hread⟩
  · exact Or.inl ⟨hend, by simp only [read, hread]⟩
  · exact Or.inr ⟨e, habout, by simp only [read, hread]⟩

/-- A command line is accepted exactly if it is items and nothing else. -/
theorem read_accepts_iff :
    (∃ options, (read arguments settings).options = .ok options) ↔
      ∃ items pieces, List.Forall₂ Item.Spelled items pieces ∧ arguments = pieces.flatten := by
  constructor
  · -- what is left over would be an error
    rintro ⟨options, hoptions⟩
    obtain ⟨items, rest, hreads⟩ := exists_reads arguments
    rcases read_options settings hreads with ⟨rfl, -⟩ | ⟨e, -, herror⟩
    · obtain ⟨pieces, hpieces, harguments, -⟩ := hreads
      exact ⟨items, pieces, hpieces, harguments.trans (List.append_nil _)⟩
    · rw [herror] at hoptions
      cases hoptions
  · rintro ⟨items, pieces, hpieces, rfl⟩
    rcases read_options settings (reads_flatten hpieces) with ⟨-, hoptions⟩ | ⟨e, habout, -⟩
    · exact ⟨_, hoptions⟩
    · cases habout

end CommandLine

/--
**A command line is its items.** It is accepted exactly if the arguments can be
cut into items, and cut they can be in one way only, as far as that goes. Where
this is to the end, nothing is said; the flags that are up are those among the
items, and offset and path are the last of theirs, or the defaults. Where it is
not, something is said about the first arguments that are no item. The settings
are changed either way, by those of the items that were read that stand for a
change, and by nothing else.
-/
theorem commandLine_items (arguments : List Bytes) (settings : Settings) :
    let line := CommandLine.read arguments settings
    ((∃ options, line.options = .ok options) ↔
      ∃ items pieces, List.Forall₂ Item.Spelled items pieces ∧ arguments = pieces.flatten) ∧
    ∃ items rest, Reads items arguments rest ∧
      (∀ items' rest', Reads items' arguments rest' → items' = items ∧ rest' = rest) ∧
      line.settings = (settings.overridden fun o => items.contains (.change o.change)) ∧
      match line.options with
      | .ok options =>
        rest = [] ∧ line.written = [] ∧ (∀ f, options.has f = true ↔ .flag f ∈ items) ∧
          IsLast (fun item n => item = .offset n) items 0 options.offset ∧
          IsLast (fun item p => item = .path p) items (ascii "-") options.path
      | .error e => e.About rest ∧ line.written ≠ [] := by
  intro line
  obtain ⟨items, rest, hreads⟩ := exists_reads arguments
  refine ⟨CommandLine.read_accepts_iff settings, items, rest, hreads,
    fun _ _ h => hreads.unique h, CommandLine.read_settings settings hreads, ?_⟩
  rcases CommandLine.read_options settings hreads with ⟨hrest, hoptions⟩ | ⟨e, habout, herror⟩
  · have hwritten : line.written = [] := by rw [CommandLine.written, hoptions]
    rw [hoptions]
    refine ⟨hrest, hwritten, fun f => ?_, RunOptions.offset_foldl items {},
      RunOptions.path_foldl items {}⟩
    have hdown : RunOptions.has {} f = false := by cases f <;> rfl
    simp [RunOptions.has_foldl, hdown]
  · have hwritten : line.written = e.message := by rw [CommandLine.written, herror]
    rw [herror, hwritten]
    exact ⟨habout, e.message_ne_nil⟩

/-- A value is one whatever it looks like, and what is read before it counts. -/
example : CommandLine.read (["--legacy", "--offset", "--help", "--no-color"].map ascii) {} =
    ⟨.error (.badOffset (ascii "--help")), { legacyIdentifiers := true }⟩ := by
  rfl

end StoryLex
