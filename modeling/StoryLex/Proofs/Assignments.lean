import StoryLex.Proofs.Overrides
import StoryLex.Proofs.Places

/-!
# StoryLex — what a settings file means

A settings file is read line by line, with trimming at three points, five ways
to reject a line and one record that all good lines write into. What comes of
it is simple: each switch is as its last good line has it, the links are those
of all good lines in order, and each bad line has its warning and no other
effect (`settings_lastAssignment`).

**A line.** What a line stands for is said without the reader: its key and its
value are what stands on either side of its first equals sign (`Assigns`), with
the white space cut off (`Trimmed`). The reader cuts off the white space of the
line first; that this makes no difference is `assigns_trim_iff`. What it makes of
a line is `readLine_cases`, and from there on no proof looks inside it.

**A file.** Lines take effect from left to right. Whatever is set by some of
them and left alone by the others is, in the end, what the last of these set
(`IsLast.foldl`).
-/

namespace StoryLex

-- ---------------------------------------------------------------------------
-- The last of several
-- ---------------------------------------------------------------------------

/-- `b` is the value of the last of the items that have one, or the default if
none of them has. -/
def IsLast {α β : Type} (value : α → β → Prop) (items : List α) (default b : β) : Prop :=
  (∃ front x back, items = front ++ x :: back ∧ value x b ∧ ∀ y ∈ back, ∀ b', ¬ value y b') ∨
    (∀ y ∈ items, ∀ b', ¬ value y b') ∧ b = default

/-- What a fold's steps set where their items have a value, and leave alone where
these have none, is the last of the values. -/
theorem IsLast.foldl {α β σ : Type} {value : α → β → Prop} (get : σ → β) (step : σ → α → σ)
    (hset : ∀ s x b, value x b → get (step s x) = b)
    (hkeep : ∀ s x, (∀ b, ¬ value x b) → get (step s x) = get s) (xs : List α) (s : σ) :
    IsLast value xs (get s) (get (xs.foldl step s)) := by
  induction xs generalizing s with
  | nil => exact Or.inr ⟨by simp, rfl⟩
  | cons x xs ih =>
    rw [List.foldl_cons]
    rcases ih (step s x) with ⟨front, y, back, rfl, hy, hback⟩ | ⟨hnone, hget⟩
    · exact Or.inl ⟨x :: front, y, back, rfl, hy, hback⟩
    -- it is as the first step leaves it
    by_cases hx : ∃ b, value x b
    · obtain ⟨b, hx⟩ := hx
      refine Or.inl ⟨[], x, xs, rfl, ?_, hnone⟩
      rwa [hget, hset s x b hx]
    · rw [not_exists] at hx
      refine Or.inr ⟨?_, hget.trans (hkeep s x hx)⟩
      intro y hy
      rcases List.mem_cons.mp hy with rfl | hy
      · exact hx
      · exact hnone y hy

-- ---------------------------------------------------------------------------
-- White space
-- ---------------------------------------------------------------------------

/-- A text without the white space at either end: no more can be cut off. -/
def Trimmed (text core : Bytes) : Prop :=
  ∃ left right, text = left ++ (core ++ right) ∧ (∀ b ∈ left, isSpace b = true) ∧
    (∀ b ∈ right, isSpace b = true) ∧ core.head?.any isSpace = false ∧
    core.getLast?.any isSpace = false

variable {text core line key value left right : Bytes} {a : Assignment}

/-- The white space in front is dropped, and no more. -/
theorem dropWhile_isSpace (hleft : ∀ b ∈ left, isSpace b = true)
    (hcore : core.head?.any isSpace = false) : (left ++ core).dropWhile isSpace = core := by
  rw [List.dropWhile_append_of_pos hleft]
  cases core with
  | nil => rfl
  | cons b core => exact List.dropWhile_cons_of_neg (by simpa using hcore)

/-- Trimming leaves the text without the white space at its ends. -/
theorem trimmed_trim (text : Bytes) : Trimmed text (trim text) := by
  set body := text.dropWhile isSpace with hbody
  have hspace : ∀ b ∈ body.reverse.takeWhile isSpace, isSpace b = true :=
    fun b hb => List.mem_takeWhile_imp hb
  have hsplit : trim text ++ (body.reverse.takeWhile isSpace).reverse = body := by
    rw [trim, trimEnd, ← hbody, ← List.reverse_append, List.takeWhile_append_dropWhile,
      List.reverse_reverse]
  refine ⟨text.takeWhile isSpace, (body.reverse.takeWhile isSpace).reverse, ?_, ?_, ?_, ?_, ?_⟩
  · rw [hsplit, List.takeWhile_append_dropWhile]
  · exact fun b hb => List.mem_takeWhile_imp hb
  · exact fun b hb => hspace b (List.mem_reverse.mp hb)
  · -- what is left begins as the text does behind its white space
    have hhead := head?_dropWhile isSpace text
    rw [← hbody, ← hsplit] at hhead
    cases htrim : trim text with
    | nil => rfl
    | cons b rest =>
      rw [htrim] at hhead
      exact hhead
  · rw [trim, trimEnd, ← hbody, List.getLast?_reverse]
    exact head?_dropWhile isSpace body.reverse

/-- There is one such text only, and trimming finds it. -/
theorem Trimmed.trim_eq (h : Trimmed text core) : trim text = core := by
  obtain ⟨left, right, rfl, hleft, hright, hhead, hlast⟩ := h
  cases core with
  -- all of the text is white space
  | nil =>
    have hnil : (left ++ ([] ++ right)).dropWhile isSpace = [] := by
      rw [List.nil_append, List.dropWhile_append_of_pos hleft, List.dropWhile_eq_nil_iff]
      exact hright
    rw [trim, hnil]
    rfl
  -- from the front white space is dropped as far as the core, and so it is from the back
  | cons b core =>
    have hbody : (left ++ (b :: core ++ right)).dropWhile isSpace = b :: core ++ right :=
      dropWhile_isSpace hleft hhead
    have hend : (right.reverse ++ (b :: core).reverse).dropWhile isSpace = (b :: core).reverse := by
      refine dropWhile_isSpace (fun x hx => hright x (List.mem_reverse.mp hx)) ?_
      rw [List.head?_reverse]
      exact hlast
    rw [trim, hbody, trimEnd, List.reverse_append, hend, List.reverse_reverse]

/-- To be the text without white space at its ends is to be what trimming
leaves. -/
theorem trimmed_iff : Trimmed text core ↔ trim text = core :=
  ⟨Trimmed.trim_eq, fun h => h ▸ trimmed_trim text⟩

/-- Trimming takes nothing but white space. -/
theorem mem_trim_iff {b : UInt8} (hb : isSpace b = false) : b ∈ trim text ↔ b ∈ text := by
  obtain ⟨left, right, htext, hleft, hright, -⟩ := trimmed_trim text
  have hl : b ∉ left := fun h => by simp [hleft b h] at hb
  have hr : b ∉ right := fun h => by simp [hright b h] at hb
  conv => rhs; rw [htext]
  simp [hl, hr]

/-- More white space at either end makes no difference. -/
theorem Trimmed.pad (h : Trimmed text core) (hleft : ∀ b ∈ left, isSpace b = true)
    (hright : ∀ b ∈ right, isSpace b = true) : Trimmed (left ++ (text ++ right)) core := by
  obtain ⟨l, r, rfl, hl, hr, hends⟩ := h
  refine ⟨left ++ l, r ++ right, by simp only [List.append_assoc], ?_, ?_, hends⟩
  · exact List.forall_mem_append.mpr ⟨hleft, hl⟩
  · exact List.forall_mem_append.mpr ⟨hr, hright⟩

theorem Trimmed.subset (h : Trimmed text core) : core ⊆ text := by
  obtain ⟨left, right, rfl, -⟩ := h
  intro b hb
  simp [hb]

-- ---------------------------------------------------------------------------
-- What a line stands for
-- ---------------------------------------------------------------------------

/-- The line gives the value to the key: these are what stands before and behind
its first equals sign, without white space around them. -/
def Assigns (line key value : Bytes) : Prop :=
  ∃ front back, line = front ++ byte '=' :: back ∧ byte '=' ∉ front ∧
    Trimmed front key ∧ Trimmed back value

/-- The first byte of the line that is no white space is a hash. -/
def IsComment (line : Bytes) : Prop := ∃ rest, Trimmed line (byte '#' :: rest)

/-- The words for on and for off. -/
def booleanWords : Bool → List Bytes
  | true => [ascii "1", ascii "true", ascii "on"]
  | false => [ascii "0", ascii "false", ascii "off"]

/-- The line makes a change of the settings. -/
def Makes (line : Bytes) : Assignment → Prop
  | .switch s on => ¬ IsComment line ∧ ∃ word ∈ booleanWords on, Assigns line (ascii s.key) word
  | .link kind group => Assigns line (ascii "hl." ++ ascii kind.name) (ascii group.name)

/-- The line is neither blank, nor a comment, nor one that makes a change. -/
def IsFaulty (line : Bytes) : Prop :=
  ¬ Trimmed line [] ∧ ¬ IsComment line ∧ ∀ a, ¬ Makes line a

/-- What stands before the first equals sign. -/
theorem takeWhile_append_equals {front : Bytes} (h : byte '=' ∉ front) (back : Bytes) :
    (front ++ byte '=' :: back).takeWhile (· != byte '=') = front := by
  have hfront : ∀ b ∈ front, (b != byte '=') = true := by
    intro b hb
    simpa using ne_of_mem_of_not_mem hb h
  rw [List.takeWhile_append_of_pos hfront, List.takeWhile_cons_of_neg (by simp), List.append_nil]

namespace Assigns

theorem equals_mem (h : Assigns line key value) : byte '=' ∈ line := by
  obtain ⟨front, back, rfl, -⟩ := h
  simp

/-- A line gives one value to one key. -/
theorem unique {key' value' : Bytes} (h : Assigns line key value)
    (h' : Assigns line key' value') : key = key' ∧ value = value' := by
  obtain ⟨front, back, rfl, hfront, hkey, hvalue⟩ := h
  obtain ⟨front', back', heq, hfront', hkey', hvalue'⟩ := h'
  -- before its first equals sign both see the same
  have hfronts : front = front' := by
    rw [← takeWhile_append_equals hfront back, heq, takeWhile_append_equals hfront' back']
  subst hfronts
  obtain rfl : back = back' := by simpa using heq
  exact ⟨hkey.trim_eq.symm.trans hkey'.trim_eq, hvalue.trim_eq.symm.trans hvalue'.trim_eq⟩

end Assigns

/-- Trimming a line first takes nothing from its key or its value. -/
theorem assigns_trim_iff : Assigns (trim line) key value ↔ Assigns line key value := by
  obtain ⟨left, right, hline, hleft, hright, -⟩ := trimmed_trim line
  have hequals : byte '=' ∉ left := fun h => absurd (hleft _ h) (by decide)
  have hnil : ∀ b ∈ ([] : Bytes), isSpace b = true := by simp
  have hpad : ∀ {key value}, Assigns (trim line) key value → Assigns line key value := by
    rintro key value ⟨front, back, heq, hfront, hkey, hvalue⟩
    refine ⟨left ++ front, back ++ right, ?_, ?_, ?_, ?_⟩
    · rw [hline, heq]
      simp only [List.append_assoc, List.cons_append]
    · rw [List.mem_append, not_or]
      exact ⟨hequals, hfront⟩
    · simpa using hkey.pad hleft hnil
    · exact hvalue.pad hnil hright
  refine ⟨hpad, fun h => ?_⟩
  -- the sign of the line is one of the trimmed line, which has a key and a value too
  have hmem : byte '=' ∈ trim line := (mem_trim_iff (by decide)).mpr h.equals_mem
  obtain ⟨front, back, heq, hfront⟩ := List.eq_append_cons_of_mem hmem
  have htrim : Assigns (trim line) (trim front) (trim back) :=
    ⟨front, back, heq, hfront, trimmed_trim front, trimmed_trim back⟩
  obtain ⟨rfl, rfl⟩ := (hpad htrim).unique h
  exact htrim

/-- The key of a comment starts with its hash. -/
theorem IsComment.head?_key (h : IsComment line) (ha : Assigns line key value) :
    key.head? = some (byte '#') := by
  obtain ⟨rest, htrim⟩ := h
  obtain ⟨front, back, heq, -, ⟨left, right, rfl, hleft, hright, -⟩, -⟩ := assigns_trim_iff.mpr ha
  rw [htrim.trim_eq] at heq
  -- neither white space nor the equals sign is a hash
  rcases left with _ | ⟨b, left⟩
  · rcases key with _ | ⟨b, key⟩
    · rcases right with _ | ⟨b, right⟩
      · exact absurd (List.cons.inj heq).1 (by decide)
      · obtain rfl : byte '#' = b := (List.cons.inj heq).1
        exact absurd (hright _ List.mem_cons_self) (by decide)
    · obtain rfl : byte '#' = b := (List.cons.inj heq).1
      rfl
  · obtain rfl : byte '#' = b := (List.cons.inj heq).1
    exact absurd (hleft _ List.mem_cons_self) (by decide)

-- ---------------------------------------------------------------------------
-- What is made of a line
-- ---------------------------------------------------------------------------

/-- Names that can be looked up are found by themselves alone. -/
theorem find?_ascii_eq_some_iff {α : Type} {all : List α} {name : α → String} {x : α}
    (h : (all.find? fun y => ascii (name y) == ascii (name x)) = some x) {text : Bytes} :
    (all.find? fun y => ascii (name y) == text) = some x ↔ text = ascii (name x) := by
  constructor
  · intro hfound
    have hx := List.find?_some hfound
    exact (beq_iff_eq.mp hx).symm
  · rintro rfl
    exact h

theorem Switch.ofKey?_key (s : Switch) : ofKey? (ascii s.key) = some s := by
  cases s <;> decide

theorem not_linkMark_prefix_key (s : Switch) : ¬ linkMark <+: ascii s.key := by
  cases s <;> decide

/-- The words for on and off are read as such, and no others. -/
theorem boolean?_eq_some_iff {text : Bytes} {on : Bool} :
    boolean? text = some on ↔ text ∈ booleanWords on := by
  have hdisjoint : ∀ w ∈ booleanWords false, w ∉ booleanWords true := by decide
  -- a word for on is looked for first, and none is a word for off too
  have hread : boolean? text =
      if text ∈ booleanWords true then some true
      else if text ∈ booleanWords false then some false else none := by
    simp [boolean?, booleanWords]
  rw [hread]
  cases on with
  | true =>
    by_cases htrue : text ∈ booleanWords true
    · simp [htrue]
    · rw [if_neg htrue]
      split <;> simp [htrue]
  | false =>
    by_cases hfalse : text ∈ booleanWords false
    · rw [if_neg (hdisjoint text hfalse), if_pos hfalse]
      simp [hfalse]
    · rw [if_neg hfalse]
      split <;> simp [hfalse]

/-- The key and the value stand for the change. -/
def Stands (key value : Bytes) : Assignment → Prop
  | .switch s on => key = ascii s.key ∧ value ∈ booleanWords on
  | .link kind group => key = ascii "hl." ++ ascii kind.name ∧ value = ascii group.name

/-- A key and a value stand for the change that they are read as. -/
theorem Stands.of_readAssignment (h : readAssignment key value = .ok a) : Stands key value a := by
  unfold readAssignment at h
  split at h
  · -- a link of a kind to a group
    next hlink =>
    obtain ⟨name, rfl⟩ := List.isPrefixOf_iff_prefix.mp hlink
    rw [List.drop_left] at h
    split at h
    · next kind group hkind hgroup =>
      cases h
      rw [(find?_ascii_eq_some_iff kind.ofName?_name).mp hkind]
      exact ⟨rfl, (find?_ascii_eq_some_iff group.ofName?_name).mp hgroup⟩
    · cases h
  · split at h
    · cases h
    · -- a switch, on or off
      next s hs =>
      split at h
      · next on hon =>
        cases h
        exact ⟨(find?_ascii_eq_some_iff s.ofKey?_key).mp hs, boolean?_eq_some_iff.mp hon⟩
      · cases h

/-- A key and a value are read as the change that they stand for. -/
theorem Stands.readAssignment_eq (h : Stands key value a) : readAssignment key value = .ok a := by
  unfold readAssignment
  cases a with
  | switch s on =>
    obtain ⟨rfl, hvalue⟩ := h
    rw [if_neg fun hlink => not_linkMark_prefix_key s (List.isPrefixOf_iff_prefix.mp hlink)]
    simp only [Switch.ofKey?_key, boolean?_eq_some_iff.mpr hvalue]
  | link kind group =>
    obtain ⟨rfl, rfl⟩ := h
    have hlink : linkMark <+: ascii "hl." ++ ascii kind.name := List.prefix_append _ _
    have hname : (ascii "hl." ++ ascii kind.name).drop linkMark.length = ascii kind.name :=
      List.drop_left
    rw [if_pos (List.isPrefixOf_iff_prefix.mpr hlink), hname]
    simp only [Kind.ofName?_name, Group.ofName?_name]

/-- Keys and values are read as the changes that they stand for, and as no
others. -/
theorem readAssignment_eq_ok_iff : readAssignment key value = .ok a ↔ Stands key value a :=
  ⟨Stands.of_readAssignment, Stands.readAssignment_eq⟩

/-- A complaint about a key and a value names no others. -/
theorem readAssignment_eq_error {complaint : Complaint}
    (h : readAssignment key value = .error complaint) :
    complaint = .badLink key value ∨ complaint = .unknownKey key ∨
      complaint = .notBoolean key value := by
  unfold readAssignment at h
  split at h
  · split at h
    · cases h
    · cases h
      exact Or.inl rfl
  · split at h
    · cases h
      exact Or.inr (Or.inl rfl)
    · split at h
      · cases h
      · cases h
        exact Or.inr (Or.inr rfl)

/-- All that reading a line can come to. -/
theorem readLine_cases (line : Bytes) :
    (Trimmed line [] ∨ IsComment line) ∧ readLine line = .ok none ∨
      (¬ Trimmed line [] ∧ ¬ IsComment line) ∧
        (byte '=' ∉ line ∧ readLine line = .error .noAssignment ∨
          ∃ key value, Assigns line key value ∧
            readLine line = (readAssignment key value).map some) := by
  cases htrim : trim line with
  | nil =>
    refine Or.inl ⟨Or.inl (trimmed_iff.mpr htrim), ?_⟩
    rw [readLine, htrim]
  | cons b rest =>
    by_cases hb : b = byte '#'
    · refine Or.inl ⟨Or.inr ⟨rest, hb ▸ trimmed_iff.mpr htrim⟩, ?_⟩
      rw [readLine, htrim, hb]
      rfl
    -- neither blank nor a comment
    refine Or.inr ⟨⟨?_, ?_⟩, ?_⟩
    · rw [trimmed_iff, htrim]
      simp
    · rintro ⟨rest', h⟩
      rw [trimmed_iff, htrim] at h
      exact hb (List.cons.inj h).1
    by_cases hmem : byte '=' ∈ trim line
    · -- the first equals sign parts the key from the value
      obtain ⟨front, back, heq, hfront⟩ := List.eq_append_cons_of_mem hmem
      have hassigns : Assigns (trim line) (trim front) (trim back) :=
        ⟨front, back, heq, hfront, trimmed_trim front, trimmed_trim back⟩
      refine Or.inr ⟨_, _, assigns_trim_iff.mp hassigns, ?_⟩
      have hkey : (b :: rest).takeWhile (· != byte '=') = front := by
        rw [← htrim, heq]
        exact takeWhile_append_equals hfront back
      have hvalue : (b :: rest).drop front.length = byte '=' :: back := by
        rw [← htrim, heq, List.drop_left]
      simp only [readLine, htrim, beq_iff_eq, if_neg hb, hkey, hvalue]
    · refine Or.inl ⟨?_, ?_⟩
      · rwa [← mem_trim_iff (by decide)]
      · have hkey : (b :: rest).takeWhile (· != byte '=') = b :: rest := by
          rw [← htrim, List.takeWhile_eq_self_iff]
          exact fun x hx => by simpa using ne_of_mem_of_not_mem hx hmem
        simp only [readLine, htrim, beq_iff_eq, if_neg hb, hkey, List.drop_length]

theorem equals_notMem_of_blank (h : Trimmed line []) : byte '=' ∉ line := by
  rw [← mem_trim_iff (by decide), h.trim_eq]
  simp

theorem Makes.equals_mem (h : Makes line a) : byte '=' ∈ line := by
  cases a with
  | switch s on =>
    obtain ⟨-, word, -, hassigns⟩ := h
    exact hassigns.equals_mem
  | link kind group => exact Assigns.equals_mem h

/-- A comment makes no change. -/
theorem Makes.not_comment (h : Makes line a) : ¬ IsComment line := by
  cases a with
  | switch s on => exact h.1
  | link kind group =>
    intro hcomment
    have hkey : some (byte 'h') = some (byte '#') := hcomment.head?_key h
    exact absurd hkey (by decide)

/-- What a line makes is what its key and its value stand for. -/
theorem Assigns.makes_iff (h : Assigns line key value) (hcomment : ¬ IsComment line) :
    Makes line a ↔ Stands key value a := by
  cases a with
  | switch s on =>
    constructor
    · rintro ⟨-, word, hword, hassigns⟩
      obtain ⟨rfl, rfl⟩ := h.unique hassigns
      exact ⟨rfl, hword⟩
    · rintro ⟨rfl, hword⟩
      exact ⟨hcomment, value, hword, h⟩
  | link kind group =>
    constructor
    · intro hassigns
      exact h.unique hassigns
    · rintro ⟨rfl, rfl⟩
      exact h

/-- The changes that are read are those that are made. -/
theorem change?_readLine_iff : change? (readLine line) = some a ↔ Makes line a := by
  rcases readLine_cases line with ⟨hnone, hread⟩ | ⟨⟨-, hcomment⟩, ⟨hmem, hread⟩ |
    ⟨key, value, hassigns, hread⟩⟩
  · rw [hread]
    refine iff_of_false (by simp [change?]) ?_
    intro h
    rcases hnone with hblank | hcomment
    · exact equals_notMem_of_blank hblank h.equals_mem
    · exact h.not_comment hcomment
  · rw [hread]
    exact iff_of_false (by simp [change?]) fun h => hmem h.equals_mem
  · -- a key and a value, which stand for the change or are complained about
    rw [hread, hassigns.makes_iff hcomment, ← readAssignment_eq_ok_iff]
    cases readAssignment key value with
    | ok a' => simp [change?, Except.map]
    | error complaint => simp [change?, Except.map]

/-- There is something to complain about in the faulty lines and in no others. -/
theorem readLine_error_iff : (∃ complaint, readLine line = .error complaint) ↔ IsFaulty line := by
  have hmakes : (∀ a, ¬ Makes line a) ↔ change? (readLine line) = none := by
    rw [Option.eq_none_iff_forall_ne_some]
    exact forall_congr' fun a => not_congr change?_readLine_iff.symm
  rw [IsFaulty, hmakes]
  rcases readLine_cases line with ⟨hnone, hread⟩ | ⟨⟨hblank, hcomment⟩, ⟨-, hread⟩ |
    ⟨key, value, -, hread⟩⟩
  · rw [hread]
    refine iff_of_false (by simp) ?_
    rintro ⟨hblank, hcomment, -⟩
    exact hnone.elim hblank hcomment
  · rw [hread]
    exact iff_of_true ⟨_, rfl⟩ ⟨hblank, hcomment, rfl⟩
  · rw [hread]
    cases readAssignment key value with
    | ok a => exact iff_of_false (by simp [Except.map]) (by simp [Except.map, change?])
    | error complaint => exact iff_of_true ⟨_, rfl⟩ ⟨hblank, hcomment, rfl⟩

-- ---------------------------------------------------------------------------
-- The lines of a file
-- ---------------------------------------------------------------------------

variable {file : Bytes} {n : Nat} {w : Warning}

/-- The lines of a text are the texts between its newlines. -/
theorem lines_eq_splitOn (text : Bytes) : lines text = text.splitOn newline := by
  induction text with
  | nil => rfl
  | cons b text ih =>
    obtain ⟨l, ls, hrest⟩ := List.exists_cons_of_ne_nil (lines_ne_nil text)
    rw [List.splitOn_cons_eq_if_modifyHead, ← ih, lines, hrest]
    rfl

/-- No line of a text holds a newline. -/
theorem newline_notMem_of_mem_lines {text : Bytes} (h : line ∈ lines text) : newline ∉ line := by
  induction text generalizing line with
  | nil =>
    rw [List.mem_singleton.mp h]
    simp
  | cons b text ih =>
    -- the first line is empty, or it goes on with the byte
    obtain ⟨l, ls, hrest⟩ := List.exists_cons_of_ne_nil (lines_ne_nil text)
    by_cases hb : b = newline
    · rw [lines, if_pos (beq_iff_eq.mpr hb)] at h
      rcases List.mem_cons.mp h with rfl | h
      · simp
      · exact ih h
    · rw [lines, if_neg (by simpa using hb), hrest] at h
      rcases List.mem_cons.mp h with rfl | h
      · rw [List.mem_cons, not_or]
        exact ⟨Ne.symm hb, ih (by simp [hrest])⟩
      · exact ih (by simp [hrest, h])

/-- The file without its line of the given number, counted from one. -/
def withoutLine (n : Nat) (file : Bytes) : Bytes :=
  [newline].intercalate ((file.splitOn newline).eraseIdx (n - 1))

namespace Settings

/-- Whether a switch is on. -/
def isOn (settings : Settings) : Switch → Bool
  | .color => settings.color
  | .legacyIdentifiers => settings.legacyIdentifiers
  | .reportUnrecognized => settings.reportUnrecognized
  | .showDiagnostics => settings.showDiagnostics

theorem isOn_assign_switch (settings : Settings) (s s' : Switch) (on : Bool) :
    (settings.assign (.switch s' on)).isOn s = if s' = s then on else settings.isOn s := by
  cases s <;> cases s' <;> rfl

theorem isOn_assign_link (settings : Settings) (s : Switch) (k : Kind) (g : Group) :
    (settings.assign (.link k g)).isOn s = settings.isOn s := by
  cases s <;> rfl

/-- The settings after one more line. -/
def takeLine (settings : Settings) (line : Bytes) : Settings :=
  match change? (readLine line) with
  | some a => settings.assign a
  | none => settings

theorem changes_eq (file : Bytes) :
    changes file = (file.splitOn newline).filterMap fun line => change? (readLine line) := by
  rw [changes, List.filterMap_map, lines_eq_splitOn]
  rfl

/-- The settings are taken from the lines one after the other. -/
theorem read_eq_foldl (file : Bytes) :
    (read file).1 = (file.splitOn newline).foldl takeLine {} := by
  show assignAll {} (changes file) = _
  rw [changes_eq, assignAll, List.foldl_filterMap]
  congr 1
  funext settings line
  unfold takeLine
  cases change? (readLine line) <;> rfl

/-- A switch is as the last line has it that turns it on or off. -/
theorem read_isOn (file : Bytes) (s : Switch) :
    IsLast (fun line on => Makes line (.switch s on)) (file.splitOn newline)
      (isOn {} s) ((read file).1.isOn s) := by
  rw [read_eq_foldl]
  refine IsLast.foldl (isOn · s) takeLine ?_ ?_ _ {}
  · intro settings line on hmakes
    rw [takeLine, change?_readLine_iff.mpr hmakes]
    show (settings.assign (.switch s on)).isOn s = on
    rw [isOn_assign_switch, if_pos rfl]
  · -- a line of another switch or of a link leaves this one alone
    intro settings line hnone
    unfold takeLine
    split
    · next a hread =>
      have hmakes := change?_readLine_iff.mp hread
      cases a with
      | switch s' on =>
        have hne : s' ≠ s := by
          rintro rfl
          exact hnone on hmakes
        rw [isOn_assign_switch, if_neg hne]
      | link k g => exact isOn_assign_link settings s k g
    · rfl

end Settings

/-- The link that a change makes, if it makes one. -/
def Assignment.link? : Assignment → Option (Kind × Group)
  | .switch _ _ => none
  | .link kind group => some (kind, group)

theorem Assignment.link?_eq_some_iff {k : Kind} {g : Group} :
    a.link? = some (k, g) ↔ a = .link k g := by
  cases a <;> simp [link?]

namespace Settings

theorem links_assign (settings : Settings) (a : Assignment) :
    (settings.assign a).links = settings.links ++ a.link?.toList := by
  rcases a with ⟨s, on⟩ | ⟨k, g⟩
  · cases s <;> simp [assign, Assignment.link?]
  · rfl

/-- Changes add their links at the end, in order. -/
theorem links_assignAll (settings : Settings) (changes : List Assignment) :
    (settings.assignAll changes).links = settings.links ++ changes.filterMap Assignment.link? := by
  induction changes generalizing settings with
  | nil => simp [assignAll]
  | cons a changes ih =>
    show ((settings.assign a).assignAll changes).links = _
    rw [ih, links_assign, List.append_assoc]
    cases h : a.link? <;> simp [h]

/-- The links are those of the lines that make one, in order. -/
theorem read_links (file : Bytes) :
    (read file).1.links = (file.splitOn newline).filterMap fun line =>
      (change? (readLine line)).bind Assignment.link? := by
  show (assignAll {} (changes file)).links = _
  rw [links_assignAll, changes_eq, List.filterMap_filterMap]
  rfl

/-- There is a warning for each line that is read with a complaint. -/
theorem mem_read_warnings :
    w ∈ (read file).2 ↔ 1 ≤ w.line ∧
      ∃ line, (file.splitOn newline)[w.line - 1]? = some line ∧
        readLine line = .error w.complaint := by
  show w ∈ warningsFrom 1 file ↔ _
  rw [warningsFrom, List.mem_filterMap]
  constructor
  · -- a warning is made of a line that is paired with its number
    rintro ⟨⟨reading, n⟩, hmem, hw⟩
    obtain ⟨hn, hreading⟩ := List.mk_mem_zipIdx_iff_le_and_getElem?_sub.mp hmem
    rw [List.getElem?_map, Option.map_eq_some_iff] at hreading
    obtain ⟨line, hline, rfl⟩ := hreading
    cases hread : readLine line with
    | ok change => simp [warning?, hread] at hw
    | error complaint =>
      obtain rfl : Warning.mk n complaint = w := by simpa [warning?, hread] using hw
      exact ⟨hn, line, lines_eq_splitOn file ▸ hline, hread⟩
  · rintro ⟨hn, line, hline, hread⟩
    refine ⟨(readLine line, w.line), ?_, ?_⟩
    · rw [List.mk_mem_zipIdx_iff_le_and_getElem?_sub, List.getElem?_map, lines_eq_splitOn, hline]
      exact ⟨hn, rfl⟩
    · simp [warning?, hread]

/-- A warning has the number of its line. -/
theorem line_of_warning? {reading : Except Complaint (Option Assignment) × Nat}
    (h : warning? reading = some w) : w.line = reading.2 := by
  unfold warning? at h
  split at h
  · cases h
  · cases h
    rfl

/-- The warnings come in the order of their lines. -/
theorem read_warnings_increasing (file : Bytes) :
    (read file).2.Pairwise fun v w => v.line < w.line := by
  show (warningsFrom 1 file).Pairwise _
  have hnumbers : (((lines file).map readLine).zipIdx 1).Pairwise fun r r' => r.2 < r'.2 := by
    rw [← List.pairwise_map, List.zipIdx_map_snd]
    exact List.pairwise_lt_range' 1
  rw [warningsFrom, List.pairwise_filterMap]
  refine hnumbers.imp ?_
  intro r r' hlt v hv w hw
  rwa [line_of_warning? hv, line_of_warning? hw]

end Settings

-- ---------------------------------------------------------------------------
-- Warnings in words
-- ---------------------------------------------------------------------------

theorem Assigns.subset (h : Assigns line key value) : key ⊆ line ∧ value ⊆ line := by
  obtain ⟨front, back, rfl, -, hkey, hvalue⟩ := h
  refine ⟨fun b hb => ?_, fun b hb => ?_⟩
  · simp [hkey.subset hb]
  · simp [hvalue.subset hb]

/-- A complaint about a line is one line. -/
theorem Complaint.newline_notMem_message {complaint : Complaint} (hline : newline ∉ line)
    (hread : readLine line = .error complaint) : newline ∉ complaint.message := by
  rcases readLine_cases line with ⟨-, h⟩ | ⟨-, ⟨-, h⟩ | ⟨key, value, hassigns, h⟩⟩
  · rw [h] at hread
    cases hread
  · rw [h] at hread
    cases hread
    decide
  · -- what it quotes is of the line, and the rest is fixed
    have hkey : newline ∉ key := fun hmem => hline (hassigns.subset.1 hmem)
    have hvalue : newline ∉ value := fun hmem => hline (hassigns.subset.2 hmem)
    rw [h] at hread
    cases hassignment : readAssignment key value with
    | ok a => simp [hassignment, Except.map] at hread
    | error complaint' =>
      obtain rfl : complaint' = complaint := by simpa [hassignment, Except.map] using hread
      rcases readAssignment_eq_error hassignment with rfl | rfl | rfl
      all_goals
        simp only [message, List.mem_append, not_or]
        simp only [hkey, hvalue, not_false_eq_true, and_true]
        decide

-- ---------------------------------------------------------------------------
-- Files without a line
-- ---------------------------------------------------------------------------

/-- An item that comes to nothing can as well be left out. -/
theorem filterMap_eraseIdx {α β : Type} {f : α → Option β} {items : List α} {x : α}
    (hx : items[n]? = some x) (hf : f x = none) :
    (items.eraseIdx n).filterMap f = items.filterMap f := by
  obtain ⟨hn, rfl⟩ := List.getElem?_eq_some_iff.mp hx
  conv => rhs; rw [← List.take_append_drop n items, List.drop_eq_getElem_cons hn]
  rw [List.eraseIdx_eq_take_drop_succ, List.filterMap_append, List.filterMap_append,
    List.filterMap_cons_none hf]

namespace Settings

/-- The changes of lines that are put together are those of the lines. -/
theorem changes_intercalate {ls : List Bytes} (h : ∀ l ∈ ls, newline ∉ l) :
    changes ([newline].intercalate ls) = ls.filterMap fun line => change? (readLine line) := by
  rw [changes_eq]
  cases ls with
  | nil => rfl
  | cons l ls => rw [List.splitOn_intercalate newline h (by simp)]

/-- A line that is warned about can as well be left out. -/
theorem read_withoutLine (h : w ∈ (read file).2) :
    (read (withoutLine w.line file)).1 = (read file).1 := by
  obtain ⟨-, line, hline, hread⟩ := mem_read_warnings.mp h
  -- putting the other lines together again gives a text with just these lines
  have hlines : ∀ l ∈ (file.splitOn newline).eraseIdx (w.line - 1), newline ∉ l := by
    intro l hl
    have hmem : l ∈ lines file := by
      rw [lines_eq_splitOn]
      exact List.mem_of_mem_eraseIdx hl
    exact newline_notMem_of_mem_lines hmem
  have hnone : change? (readLine line) = none := by rw [hread]; rfl
  show assignAll {} (changes _) = assignAll {} (changes file)
  rw [withoutLine, changes_intercalate hlines, filterMap_eraseIdx hline hnone, ← changes_eq]

/-- A kind has the group of its last link, or else its standard one. -/
theorem highlightTable_group (settings : Settings) (k : Kind) :
    IsLast (fun link g => link = (k, g)) settings.links (HighlightTable.standard.group k)
      (settings.highlightTable.group k) := by
  refine IsLast.foldl (fun table : HighlightTable => table.group k)
    (fun table (link : Kind × Group) => table.set link.1 link.2) ?_ ?_ settings.links _
  · rintro table _ g rfl
    exact table.group_set_self k g
  · intro table link hnone
    refine HighlightTable.group_set_of_ne ?_
    rintro rfl
    exact hnone link.2 rfl

end Settings

/--
**A settings file means its last good lines.** A switch is as the last line has
it that turns it on or off, or as it is without a file. The links are those of
the lines that make one, in order; and a kind of token has the group of its last
link, or its standard one. Each faulty line has one warning, which is one line
with its number, and the warnings come in the order of the lines. So a file may
go without any line that is warned about.
-/
theorem settings_lastAssignment (file : Bytes) :
    let settings := (Settings.read file).1
    let warnings := (Settings.read file).2
    let lines := file.splitOn newline
    (∀ s, IsLast (fun line on => Makes line (.switch s on)) lines (Settings.isOn {} s)
      (settings.isOn s)) ∧
    (∃ link? : Bytes → Option (Kind × Group),
      (∀ line k g, link? line = some (k, g) ↔ Makes line (.link k g)) ∧
        settings.links = lines.filterMap link?) ∧
    (warnings.Pairwise (fun v w => v.line < w.line) ∧
      (∀ n, (∃ w ∈ warnings, w.line = n) ↔
        1 ≤ n ∧ ∃ line, lines[n - 1]? = some line ∧ IsFaulty line) ∧
      ∀ w ∈ warnings, ∃ said, newline ∉ said ∧ w.message =
        ascii "[config] line " ++ decimal w.line ++ ascii ": " ++ said ++ [newline]) ∧
    (∀ k, IsLast (fun link g => link = (k, g)) settings.links (HighlightTable.standard.group k)
      (settings.highlightTable.group k)) ∧
    ∀ w ∈ warnings, (Settings.read (withoutLine w.line file)).1 = settings := by
  intro settings warnings lines
  refine ⟨Settings.read_isOn file, ⟨_, ?_, Settings.read_links file⟩,
    ⟨Settings.read_warnings_increasing file, ?_, ?_⟩, settings.highlightTable_group,
    fun w => Settings.read_withoutLine⟩
  · intro line k g
    rw [Option.bind_eq_some_iff, ← change?_readLine_iff]
    simp [Assignment.link?_eq_some_iff]
  · intro n
    constructor
    · rintro ⟨w, hw, rfl⟩
      obtain ⟨hn, line, hline, hread⟩ := Settings.mem_read_warnings.mp hw
      exact ⟨hn, line, hline, readLine_error_iff.mp ⟨_, hread⟩⟩
    · rintro ⟨hn, line, hline, hfaulty⟩
      obtain ⟨complaint, hread⟩ := readLine_error_iff.mpr hfaulty
      exact ⟨⟨n, complaint⟩, Settings.mem_read_warnings.mpr ⟨hn, line, hline, hread⟩, rfl⟩
  · intro w hw
    obtain ⟨-, line, hline, hread⟩ := Settings.mem_read_warnings.mp hw
    have hmem := List.mem_of_getElem? hline
    rw [← lines_eq_splitOn] at hmem
    exact ⟨_, Complaint.newline_notMem_message (newline_notMem_of_mem_lines hmem) hread, rfl⟩

end StoryLex
