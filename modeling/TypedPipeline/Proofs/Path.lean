import Mathlib.Data.List.TakeWhile
import Mathlib.Tactic.TFAE
import TypedPipeline.Path

/-!
# Proofs.Path: paths and their written form

A text is read part by part, and a part is a name with brackets behind it, while a path is written
step by step. This file fixes:

* the paths that can be read (`Path.Readable`): at least one step, positions of 64 bits, and names
  that neither end a part nor begin a bracket;
* that the parts of a written path are its names, each with the brackets that follow it
  (`exists_parts`), so a readable path comes back from its written form (`parse?_text`);
* that nothing else is read, from any text (`readable_of_parse?`);
* **the three together** (`tfae_readable`).
-/

namespace TypedPipeline

/-- A name neither ends a part nor begins a bracket, and a position has 64 bits. -/
def Segment.Readable : Segment → Prop
  | .property name => name ≠ "" ∧ '.' ∉ name.toList ∧ '[' ∉ name.toList
  | .index position => position < UInt64.size
  | .items => True

namespace Path

/-- There is a step, and every step can be read. -/
def Readable (path : Path) : Prop := path ≠ [] ∧ ∀ segment ∈ path, segment.Readable

/-! ## 1. Parts -/

section Parts

variable {separator : Char} {cs rest part : List Char} {parts : List (List Char)}

theorem splitAt_ne_nil (separator : Char) (cs : List Char) : splitAt separator cs ≠ [] := by
  cases cs with
  | nil => simp [splitAt]
  | cons c rest =>
      rw [splitAt]
      split
      · simp
      · split <;> simp

theorem splitAt_separator (separator : Char) (rest : List Char) :
    splitAt separator (separator :: rest) = [] :: splitAt separator rest := by
  rw [splitAt, if_pos rfl]

theorem splitAt_cons {c : Char} (hc : c ≠ separator) (h : splitAt separator rest = part :: parts) :
    splitAt separator (c :: rest) = (c :: part) :: parts := by
  rw [splitAt, if_neg hc, h]

/-- What has no separator in it goes to the first part. -/
theorem splitAt_append (free : separator ∉ cs) (h : splitAt separator rest = part :: parts) :
    splitAt separator (cs ++ rest) = (cs ++ part) :: parts := by
  induction cs with
  | nil => exact h
  | cons c cs ih =>
      rw [List.mem_cons, not_or] at free
      exact splitAt_cons (Ne.symm free.1) (ih free.2)

/-- There is no separator in a part. -/
theorem not_mem_of_mem_splitAt (h : part ∈ splitAt separator cs) : separator ∉ part := by
  induction cs generalizing part with
  | nil =>
      rw [splitAt, List.mem_singleton] at h
      simp [h]
  | cons c rest ih =>
      by_cases hc : c = separator
      · rw [hc, splitAt_separator, List.mem_cons] at h
        rcases h with rfl | h
        · simp
        · exact ih h
      · obtain ⟨first, later, e⟩ := List.exists_cons_of_ne_nil (splitAt_ne_nil separator rest)
        rw [splitAt_cons hc e, List.mem_cons] at h
        rcases h with rfl | h
        · rw [List.mem_cons, not_or]
          exact ⟨Ne.symm hc, ih (e ▸ List.mem_cons_self)⟩
        · exact ih (e ▸ List.mem_cons_of_mem _ h)

end Parts

/-! ## 2. Brackets -/

section Brackets

variable {inner rest : List Char} {segment : Segment} {segments : List Segment}

theorem isDigit_of_mem_toDigits {n : Nat} {c : Char} (h : c ∈ Nat.toDigits 10 n) :
    c.isDigit = true :=
  Nat.isDigit_of_mem_toDigits (by decide) (by decide) h

/-- **A position of 64 bits is read back from its digits.** -/
theorem readPosition?_toDigits {n : Nat} (h : n < UInt64.size) :
    readPosition? (Nat.toDigits 10 n) = some n := by
  have digits : (Nat.toDigits 10 n).all (fun c => '0' ≤ c && c ≤ '9') = true := by
    rw [List.all_eq_true]
    intro c hc
    have := isDigit_of_mem_toDigits hc
    simpa [Char.isDigit, Char.le_def] using this
  have value : (Nat.toDigits 10 n).foldl (fun n c => n * 10 + (c.toNat - '0'.toNat)) 0 = n := by
    have := Nat.ofDigitChars_ten_toDigits (n := n)
    rw [Nat.ofDigitChars] at this
    simpa only [Nat.mul_comm 10] using this
  have unsigned : ∀ rest, Nat.toDigits 10 n ≠ '+' :: rest := by
    intro rest e
    have := isDigit_of_mem_toDigits (n := n) (c := '+') (by simp [e])
    exact absurd this (by decide)
  unfold readPosition?
  split
  · rename_i rest e
    exact absurd e (unsigned rest)
  · simp only [Nat.toDigits_ne_nil, if_false, digits, if_true, value, h]

theorem lt_of_readPosition? {digits : List Char} {n : Nat} (h : readPosition? digits = some n) :
    n < UInt64.size := by
  unfold readPosition? at h
  grind

theorem readable_of_readBracket? (h : readBracket? inner = some segment) : segment.Readable := by
  unfold readBracket? at h
  split at h
  · cases h
    trivial
  · obtain ⟨n, hn, rfl⟩ := Option.map_eq_some_iff.1 h
    exact lt_of_readPosition? hn

/-- A bracket is read up to its end. -/
theorem readInside?_append (before : List Char) (closed : ']' ∉ inner)
    (hs : readBracket? (before.reverse ++ inner) = some segment)
    (hr : readBrackets? rest = some segments) :
    readInside? before (inner ++ ']' :: rest) = some (segment :: segments) := by
  induction inner generalizing before with
  | nil =>
      rw [List.append_nil] at hs
      simp [readInside?, hs, hr]
  | cons c inner ih =>
      rw [List.mem_cons, not_or] at closed
      rw [List.cons_append, readInside?, if_neg (Ne.symm closed.1)]
      exact ih (c :: before) closed.2 (by simpa using hs)

theorem readBrackets?_cons (closed : ']' ∉ inner) (hs : readBracket? inner = some segment)
    (hr : readBrackets? rest = some segments) :
    readBrackets? ('[' :: (inner ++ ']' :: rest)) = some (segment :: segments) := by
  rw [readBrackets?, if_pos rfl]
  exact readInside?_append [] closed hs hr

/-- Brackets are steps that can be read, at least one if anything is there. -/
theorem readable_of_readBrackets? {cs : List Char} (h : readBrackets? cs = some segments) :
    (∀ segment ∈ segments, segment.Readable) ∧ (cs ≠ [] → segments ≠ []) := by
  induction cs using readBrackets?.induct
    (motive_2 := fun inner cs => ∀ segments, readInside? inner cs = some segments →
      (∀ segment ∈ segments, segment.Readable) ∧ segments ≠ []) generalizing segments with
  | case1 =>
      rw [readBrackets?] at h
      cases h
      simp
  | case2 rest ih =>
      rw [readBrackets?, if_pos rfl] at h
      exact ⟨(ih segments h).1, fun _ => (ih segments h).2⟩
  | case3 c rest hc =>
      rw [readBrackets?, if_neg hc] at h
      cases h
  | case4 inner segments h =>
      rw [readInside?] at h
      cases h
  | case5 inner rest ih segments h =>
      rw [readInside?, if_pos rfl] at h
      obtain ⟨segment, hs, h⟩ := Option.bind_eq_some_iff.1 h
      obtain ⟨later, hl, h⟩ := Option.bind_eq_some_iff.1 h
      cases h
      exact ⟨List.forall_mem_cons.2 ⟨readable_of_readBracket? hs, (ih hl).1⟩, by simp⟩
  | case6 inner c rest hc ih segments h =>
      rw [readInside?, if_neg hc] at h
      exact ih segments h

/-! ## 3. A part -/

theorem readPart?_eq (part : List Char) :
    readPart? part = (readBrackets? (part.dropWhile (· ≠ '['))).map fun segments =>
      if part.takeWhile (· ≠ '[') = [] then segments
      else .property (String.ofList (part.takeWhile (· ≠ '['))) :: segments := by
  unfold readPart?
  cases readBrackets? (part.dropWhile (· ≠ '[')) <;> rfl

/-- The name of a part ends where its brackets begin. -/
theorem readPart?_append {name brackets : List Char} (hn : '[' ∉ name)
    (hb : readBrackets? brackets = some segments) :
    readPart? (name ++ brackets) =
      some (if name = [] then segments else .property (String.ofList name) :: segments) := by
  have before : ∀ c ∈ name, decide (c ≠ '[') = true := by
    intro c hc
    rw [decide_eq_true_eq]
    rintro rfl
    exact hn hc
  obtain ⟨own, later⟩ :
      brackets.takeWhile (· ≠ '[') = [] ∧ brackets.dropWhile (· ≠ '[') = brackets := by
    cases brackets with
    | nil => simp
    | cons c rest =>
        rw [readBrackets?] at hb
        split at hb
        · rename_i hc
          simp [hc]
        · cases hb
  rw [readPart?_eq, List.takeWhile_append_of_pos before, List.dropWhile_append_of_pos before, own,
    later, List.append_nil, hb]
  rfl

/-- A part is a name, unless that is empty, and brackets. -/
theorem readable_of_readPart? {part : List Char} (free : '.' ∉ part)
    (h : readPart? part = some segments) :
    (∀ segment ∈ segments, segment.Readable) ∧ (part ≠ [] → segments ≠ []) := by
  rw [readPart?_eq] at h
  obtain ⟨later, hl, rfl⟩ := Option.map_eq_some_iff.1 h
  obtain ⟨each, some⟩ := readable_of_readBrackets? hl
  split
  · rename_i unnamed
    have whole := List.takeWhile_append_dropWhile (p := (· ≠ '[')) (l := part)
    rw [unnamed, List.nil_append] at whole
    rw [whole] at some
    exact ⟨each, some⟩
  · rename_i named
    refine ⟨List.forall_mem_cons.2 ⟨⟨?_, ?_, ?_⟩, each⟩, by simp⟩
    · simpa using named
    · rw [String.toList_ofList]
      exact fun dot => free (List.takeWhile_subset _ dot)
    · rw [String.toList_ofList]
      intro bracket
      simpa using List.mem_takeWhile_imp bracket

end Brackets

/-! ## 4. Whole paths -/

/-- The written form of a path as characters, where each step follows others. -/
def laterChars (path : Path) : List Char := path.flatMap fun segment => (laterText segment).toList

theorem laterChars_cons (segment : Segment) (rest : Path) :
    laterChars (segment :: rest) = (laterText segment).toList ++ laterChars rest :=
  List.flatMap_cons

theorem toList_text_cons (first : Segment) (rest : Path) :
    (text (first :: rest)).toList = (firstText first).toList ++ laterChars rest := by
  rw [text, String.toList_append, String.toList_join, List.flatMap_map]
  rfl

/-- A step in brackets, as it is written, and what is read of it. -/
theorem exists_inner {segment : Segment} (readable : segment.Readable)
    (h : ∀ name, segment ≠ .property name) : ∃ inner, ']' ∉ inner ∧ '.' ∉ inner ∧
      (laterText segment).toList = '[' :: (inner ++ [']']) ∧ readBracket? inner = some segment := by
  cases segment with
  | property name => exact absurd rfl (h name)
  | items => exact ⟨[], by simp, by simp, rfl, rfl⟩
  | index position =>
      have digit (c : Char) (hc : c.isDigit = false) : c ∉ Nat.toDigits 10 position := fun hm => by
        rw [isDigit_of_mem_toDigits hm] at hc
        cases hc
      refine ⟨Nat.toDigits 10 position, digit _ rfl, digit _ rfl, ?_, ?_⟩
      · simp [laterText, toString, Nat.repr_eq_ofList_toDigits, String.toList_append]
      · simp [readBracket?, Nat.toDigits_ne_nil, readPosition?_toDigits readable]

/-- **The parts of what is written**: brackets that belong to the part before, and parts of their
    own, which are read as the steps they are made of. -/
theorem exists_parts {path : Path} (readable : ∀ segment ∈ path, segment.Readable) :
    ∃ brackets parts segments read,
      splitAt '.' (laterChars path) = brackets :: parts ∧ readBrackets? brackets = some segments ∧
        parts.mapM readPart? = some read ∧ segments ++ read.flatten = path := by
  induction path with
  | nil => exact ⟨[], [], [], [], rfl, rfl, rfl, rfl⟩
  | cons first rest ih =>
      obtain ⟨hf, hr⟩ := List.forall_mem_cons.1 readable
      obtain ⟨brackets, parts, segments, read, split, own, later, rfl⟩ := ih hr
      rw [laterChars_cons]
      by_cases named : ∃ name, first = .property name
      · -- a name begins a part of its own, which takes the brackets behind it
        obtain ⟨name, rfl⟩ := named
        obtain ⟨some, dot, bracket⟩ := hf
        refine ⟨[], (name.toList ++ brackets) :: parts, [], (.property name :: segments) :: read,
          ?_, rfl, ?_, rfl⟩
        · have written : (laterText (.property name)).toList = '.' :: name.toList := by
            simp [laterText, String.toList_append]
          rw [written, List.cons_append, splitAt_separator, splitAt_append dot split]
        · have part := readPart?_append bracket own
          rw [if_neg (by simpa using some), String.ofList_toList] at part
          simp [List.mapM_cons, part, later]
      · obtain ⟨inner, closed, dot, written, bracket⟩ :=
          exists_inner hf fun name e => named ⟨name, e⟩
        refine ⟨'[' :: (inner ++ ']' :: brackets), parts, first :: segments, read, ?_,
          readBrackets?_cons closed bracket own, later, rfl⟩
        rw [written, splitAt_append (by simpa using dot) split]
        simp

/-- The parts of a text, read in turn; the first one is not empty. -/
theorem parse?_of_splitAt {s : String} {part : List Char} {parts : List (List Char)}
    {read : List (List Segment)} (split : splitAt '.' s.toList = part :: parts) (some : part ≠ [])
    (h : (part :: parts).mapM readPart? = Option.some read) : parse? s = Option.some read.flatten := by
  have first : (part :: parts).head? ≠ Option.some [] := fun e => some (Option.some.inj e)
  unfold parse?
  rw [split]
  refine Option.bind_eq_some_iff.2 ⟨(), if_pos first, ?_⟩
  rw [h]
  rfl

/-- **A readable path comes back from its written form.** -/
theorem parse?_text {path : Path} (h : path.Readable) : parse? path.text = some path := by
  obtain ⟨some, readable⟩ := h
  cases path with
  | nil => exact absurd rfl some
  | cons first rest =>
      obtain ⟨hf, hr⟩ := List.forall_mem_cons.1 readable
      by_cases named : ∃ name, first = .property name
      · obtain ⟨name, rfl⟩ := named
        obtain ⟨brackets, parts, segments, read, split, own, later, rfl⟩ := exists_parts hr
        obtain ⟨some, dot, bracket⟩ := hf
        have some : name.toList ≠ [] := by simpa using some
        have part := readPart?_append bracket own
        rw [if_neg some, String.ofList_toList] at part
        have whole : ((name.toList ++ brackets) :: parts).mapM readPart? =
            Option.some ((.property name :: segments) :: read) := by
          simp [List.mapM_cons, part, later]
        refine parse?_of_splitAt ?_ (by simp [some]) whole
        rw [toList_text_cons]
        exact splitAt_append dot split
      · -- brackets are written alike wherever they stand
        have same : (text (first :: rest)).toList = laterChars (first :: rest) := by
          rw [toList_text_cons, laterChars_cons]
          cases first with
          | property name => exact absurd ⟨name, rfl⟩ named
          | index position => rfl
          | items => rfl
        obtain ⟨brackets, parts, segments, read, split, own, later, e⟩ := exists_parts readable
        obtain ⟨inner, closed, dot, written, bracket⟩ :=
          exists_inner hf fun name e => named ⟨name, e⟩
        have some : brackets ≠ [] := by
          rintro rfl
          rw [laterChars_cons, written, List.cons_append] at split
          obtain ⟨part, more, e⟩ := List.exists_cons_of_ne_nil (splitAt_ne_nil '.' _)
          rw [splitAt_cons (by decide) e] at split
          cases split
        have nameless : '[' ∉ ([] : List Char) := by simp
        have part := readPart?_append nameless own
        rw [List.nil_append, if_pos rfl] at part
        have whole : (brackets :: parts).mapM readPart? = Option.some (segments :: read) := by
          simp [List.mapM_cons, part, later]
        rw [parse?_of_splitAt (same ▸ split) some whole, List.flatten_cons, e]

/-- What parts are read as can be read, and is not empty if the first part is not. -/
theorem readable_of_mapM {parts : List (List Char)} {read : List (List Segment)}
    (free : ∀ part ∈ parts, '.' ∉ part) (h : parts.mapM readPart? = some read) :
    (∀ segment ∈ read.flatten, segment.Readable) ∧
      ∀ first rest, parts = first :: rest → first ≠ [] → read.flatten ≠ [] := by
  induction parts generalizing read with
  | nil =>
      cases h
      exact ⟨by simp, by simp⟩
  | cons part rest ih =>
      obtain ⟨hp, hr⟩ := List.forall_mem_cons.1 free
      rw [List.mapM_cons] at h
      obtain ⟨segments, hs, h⟩ := Option.bind_eq_some_iff.1 h
      obtain ⟨later, hl, h⟩ := Option.bind_eq_some_iff.1 h
      cases h
      obtain ⟨each, some⟩ := readable_of_readPart? hp hs
      rw [List.flatten_cons]
      refine ⟨List.forall_mem_append.2 ⟨each, (ih hr hl).1⟩, ?_⟩
      rintro _ _ ⟨⟩ ne
      exact List.append_ne_nil_of_left_ne_nil (some ne) _

/-- **Whatever text a path is read from, it can be read.** -/
theorem readable_of_parse? {s : String} {path : Path} (h : parse? s = some path) :
    path.Readable := by
  unfold parse? at h
  obtain ⟨_, guarded, h⟩ := Option.bind_eq_some_iff.1 h
  obtain ⟨read, hr, h⟩ := Option.bind_eq_some_iff.1 h
  cases h
  obtain ⟨first, rest, split⟩ := List.exists_cons_of_ne_nil (splitAt_ne_nil '.' s.toList)
  have some : first ≠ [] := by
    rintro rfl
    rw [split] at guarded
    cases guarded
  obtain ⟨each, ne⟩ := readable_of_mapM (fun _ => not_mem_of_mem_splitAt) hr
  exact ⟨ne first rest split some, each⟩

/-- **The paths that come back from their written form are the readable ones, and no others are read
    from any text.** -/
theorem tfae_readable (path : Path) :
    [path.Readable, parse? path.text = some path, ∃ s, parse? s = some path].TFAE := by
  tfae_have 1 → 2 := parse?_text
  tfae_have 2 → 3 := fun h => ⟨_, h⟩
  tfae_have 3 → 1 := fun ⟨_, h⟩ => readable_of_parse? h
  tfae_finish

end Path

end TypedPipeline
