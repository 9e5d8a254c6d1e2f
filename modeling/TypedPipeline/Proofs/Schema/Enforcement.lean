import TypedPipeline.Proofs.Schema.Reading

/-!
# Proofs.Schema.Enforcement: what is accepted is what the keywords say

A document may be read as a schema that accepts more than the document says. This file fixes:

* that a number within the bound that is read for an end of a range is within the bounds that are
  written for it (`meetsRange_of_reads`);
* that a value accepted by the typed part of a document meets the keywords of the document, and that
  what it holds is accepted by what is read from the documents inside (`meetsOwn_of_typedAs`,
  `property_of_typedAs`, `item_of_typedAs`);
* **that what is accepted meets the document** (`meets_of_accepts`), if at every level of it reading
  loses nothing;
* one document for each way in which reading does lose something (`accepts_what_is_excluded`).
-/

namespace TypedPipeline

open Binary64

namespace Schema

variable {p : Precision} {members : Keyed Json} {path : Path} {v : Json} {n : Number}

/-! ## 1. Ranges -/

namespace RangeEnd

/-- A number does not break the bound of an end. -/
def Keeps : RangeEnd → Bound → Binary64 → Prop
  | .low, bound, x => Scalar.below x bound = false
  | .high, bound, x => Scalar.above x bound = false

theorem keeps_of_fits {s : Scalar} (fits : s.Fits (.number n)) (e : RangeEnd) :
    ∀ b ∈ e.bound s, e.Keeps b n.toBinary64 := by
  cases e with
  | low => exact fits.low n rfl
  | high => exact fits.high n rfl

/-- **A number that keeps a sharp bound keeps it in either precision.** -/
theorem within_of_keeps {e : RangeEnd} {b : Number} {flag : Bool} (sharp : p.Sharp b)
    (nan : b.toBinary64.isNaN = false) (pn : n.Proper)
    (keeps : e.Keeps ⟨b.toBinary64, flag⟩ n.toBinary64) :
    e.Within (p.units b) (p.units n) ∧ (flag = true → p.units n ≠ p.units b) := by
  have nn := Number.isNaN_toBinary64 pn
  obtain ⟨below, above⟩ := sharp.le_iff (n := n)
  have apart (h : n.toBinary64.units ≠ b.toBinary64.units) : p.units n ≠ p.units b :=
    fun e => h (sharp.eq_iff.2 e.symm).symm
  cases e with
  | low =>
      obtain ⟨within, out⟩ :=
        (Scalar.below_eq_false_iff (b := ⟨b.toBinary64, flag⟩) nn nan).1 keeps
      exact ⟨below.1 within, fun excluded => apart (out excluded)⟩
  | high =>
      obtain ⟨within, out⟩ :=
        (Scalar.above_eq_false_iff (b := ⟨b.toBinary64, flag⟩) nn nan).1 keeps
      exact ⟨above.1 within, fun excluded => apart (out excluded)⟩

end RangeEnd

theorem readExclusive_cases {keyword : String} {bound o : Option Bound}
    (h : readExclusive members keyword bound path = .ok o) :
    (members.find? keyword = some (.bool true) ∧
      o = bound.map fun b => { b with exclusive := true }) ∨
    ((∀ b, members.find? keyword ≠ some (.number b)) ∧
      members.find? keyword ≠ some (.bool true) ∧ o = bound) ∨
    ∃ b, members.find? keyword = some (.number b) ∧ o = some ⟨b.toBinary64, true⟩ := by
  unfold readExclusive at h
  split at h
  · rename_i flag
    cases h
    exact Or.inl ⟨flag, rfl⟩
  · rename_i flag
    cases h
    exact Or.inr (Or.inl ⟨by simp [flag], by simp [flag], rfl⟩)
  · rename_i absent
    cases h
    exact Or.inr (Or.inl ⟨by simp [absent], by simp [absent], rfl⟩)
  · rename_i value _ _ found
    cases value with
    | number b =>
        cases h
        exact Or.inr (Or.inr ⟨b, found, rfl⟩)
    | _ => cases h

/-- **A number that keeps the bound which is read for an end meets both keywords of the end.** -/
theorem meetsRange_of_reads {e : RangeEnd} {bound : Option Bound}
    (inOrder : RangeInOrder p members e) (pn : n.Proper) (reads : e.Reads members path bound)
    (finite : ∀ b ∈ bound, b.value.isFinite = true)
    (keeps : ∀ b ∈ bound, e.Keeps b n.toBinary64) : MeetsRange p members e n := by
  obtain ⟨x, hx, reads⟩ := reads
  have own {b : Number} {flag : Bool} (sharp : p.Sharp b)
      (hb : bound = some ⟨b.toBinary64, flag⟩) :
      e.Within (p.units b) (p.units n) ∧ (flag = true → p.units n ≠ p.units b) :=
    RangeEnd.within_of_keeps sharp (isNaN_of_isFinite (finite _ hb)) pn (keeps _ hb)
  have sharp (b : Number) (hb : members.find? e.keyword = some (.number b)) :=
    inOrder.sharp _ (Or.inl rfl) b hb
  rcases readExclusive_cases reads with ⟨flag, rfl⟩ | ⟨noBound, noFlag, rfl⟩ | ⟨b, hb, rfl⟩
  · have own (b : Number) (hb : members.find? e.keyword = some (.number b)) :=
      @own b true (sharp b hb) (by rw [readNumber_keeps hx hb]; rfl)
    exact ⟨fun b hb => (own b hb).1, fun b hb _ => (own b hb).2 rfl,
      fun b hb => absurd (flag ▸ hb) (by simp)⟩
  · have own (b : Number) (hb : members.find? e.keyword = some (.number b)) :=
      @own b false (sharp b hb) (by rw [readNumber_keeps hx hb]; rfl)
    exact ⟨fun b hb => (own b hb).1, fun _ _ flag => absurd flag noFlag,
      fun b hb => absurd hb (noBound b)⟩
  · obtain ⟨within, apart⟩ := own (inOrder.sharp _ (Or.inr rfl) b hb) rfl
    refine ⟨fun a ha => (inOrder.tighter a b ha hb).trans within,
      fun _ _ flag => absurd (hb ▸ flag) (by simp), fun b' hb' => ?_⟩
    rw [hb] at hb'
    cases hb'
    exact ⟨within, apart rfl⟩

/-! ## 2. One place of a value -/

theorem Takes.isScalar {s : Scalar} (h : (Schema.scalar s).Takes v) : v.isScalar = true :=
  Scalar.isScalar_of_acceptsKind (accepts_scalar_iff.1 h.2).kind

theorem isNumeric_of_acceptsKind {s : Scalar} (h : s.acceptsKind (.number n) = true) :
    s.kind.isNumeric = true := by
  cases hk : s.kind <;> simp_all [Scalar.acceptsKind, ScalarKind.isNumeric]

/-- A value that a kind accepts is of the type of that name. -/
theorem ofType_of_acceptsKind {s : Scalar} (p : Precision) (pv : v.Proper)
    (h : s.acceptsKind v = true) : OfType p s.kind.name v := by
  unfold Scalar.acceptsKind at h
  split at h
  · rename_i kind
    rw [kind]
    exact trivial
  · rename_i whole _ _ kind
    rw [kind]
    cases whole with
    | number n => exact p.dvd_units pv h
    | _ => cases h
  · rename_i kind
    rw [kind]
    exact trivial
  · rename_i kind
    rw [kind]
    exact trivial
  · rename_i kind
    rw [kind]
    exact trivial
  · cases h

theorem meetsOwn_of_scalar {s : Scalar} (enforceable : Enforceable p members) (pv : v.Proper)
    (reads : ReadsScalar members path s) (takes : (Schema.scalar s).Takes v) :
    MeetsOwn p members v := by
  have fits := accepts_scalar_iff.1 takes.2
  have sound : s.Sound := takes.1.self
  have scalar := takes.isScalar
  have noArray (items : List Json) : v ≠ .array items := fun e => by rw [e] at scalar; cases scalar
  have noObject (found : Keyed Json) : v ≠ .object found :=
    fun e => by rw [e] at scalar; cases scalar
  refine
    { type := fun value e => ⟨_, reads.type value e, ofType_of_acceptsKind p pv fits.kind⟩
      literal := fun values e => ?_
      range := ?_
      required := fun found e => absurd e (noObject found)
      closed := fun found e => absurd e (noObject found)
      least := fun items e => absurd e (noArray items)
      most := fun items e => absurd e (noArray items) }
  · obtain ⟨listed, he, sub⟩ := reads.literal values e
    obtain ⟨m, hm, agrees⟩ := fits.member listed he
    refine ⟨m, sub m hm, Json.inUnits_eq_of_agrees scalar (fun n hn => ?_) agrees⟩
    exact enforceable.literal values e n (hn ▸ sub m hm)
  · rintro n rfl e
    have finite : ∀ b ∈ e.bound s, b.value.isFinite = true := by
      cases e with
      | low => exact fun b hb => (sound.low b hb).2
      | high => exact fun b hb => (sound.high b hb).2
    exact meetsRange_of_reads (enforceable.range e) pv
      (reads.range (isNumeric_of_acceptsKind fits.kind) e) finite (e.keeps_of_fits fits)

/-- Where a document is read as an object or an array, it lists no literal values. -/
theorem ReadsAs.no_literal {kind : String} (as : ReadsAs members kind)
    (enforceable : Enforceable p members) (composite : kind = "object" ∨ kind = "array") :
    members.find? "enum" = none := by
  cases hl : members.find? "enum" with
  | none => rfl
  | some literals =>
      cases ht : members.find? "type" with
      | none => exact absurd (hl ▸ as.literal ht) (by simp)
      | some value =>
          obtain ⟨noObject, noArray⟩ := enforceable.scalars literals value hl ht
          rcases composite with rfl | rfl
          · exact absurd (as.type value ht) noObject
          · exact absurd (as.type value ht) noArray

variable {definitions : Keyed Json} {resolving : List String}

theorem meetsOwn_of_object {s : Schema} (enforceable : Enforceable p members)
    (as : ReadsAs members "object")
    (read : readObject definitions resolving members path = .ok s) (takes : s.Takes v) :
    MeetsOwn p members v := by
  obtain ⟨properties, rules, defaults, rfl, hr, documents⟩ := readObject_cases read
  obtain ⟨sound, accepted⟩ := takes
  obtain ⟨found, rfl, each, shut⟩ := accepts_object.1 accepted
  obtain ⟨required, closed⟩ := readRules_keeps hr
  refine
    { type := fun value e => ⟨"object", as.type value e, trivial⟩
      literal := fun values e => absurd (as.no_literal enforceable (Or.inl rfl) ▸ e) (by simp)
      range := fun _ e => (by cases e)
      required := ?_
      closed := ?_
      least := fun _ e => (by cases e)
      most := fun _ e => (by cases e) }
  · rintro _ ⟨⟩ names e name hn
    have hreq := required names e name hn
    -- a required name is only looked for among the declared ones, and a schema in order declares it
    obtain ⟨property, declared⟩ := Option.isSome_iff_exists.1 (sound.self.required name hreq)
    obtain ⟨w, hw, _⟩ := exists_required declared hreq each
    rw [Keyed.has, hw]
    rfl
  · rintro _ ⟨⟩ e name hn
    have declared := shut (closed e) name hn
    rcases documents with ⟨_, rfl⟩ | ⟨documents, hd, hp⟩
    · cases declared
    · exact ⟨documents, hd, (readProperties_keeps hp).1 ▸ Keyed.has_iff.1 declared⟩

theorem meetsOwn_of_array {s : Schema} (enforceable : Enforceable p members)
    (as : ReadsAs members "array")
    (read : readArray definitions resolving members path = .ok s) (takes : s.Takes v) :
    MeetsOwn p members v := by
  obtain ⟨items, length, least, most, rfl, hleast, hmost, atLeast, atMost, _⟩ := readArray_cases read
  obtain ⟨found, rfl, ⟨low, high⟩, _⟩ := accepts_array.1 takes.2
  have pos := unitsPerOne_pos
  refine
    { type := fun value e => ⟨"array", as.type value e, trivial⟩
      literal := fun values e => absurd (as.no_literal enforceable (Or.inr rfl) ▸ e) (by simp)
      range := fun _ e => (by cases e)
      required := fun _ e => (by cases e)
      closed := fun _ e => (by cases e)
      least := ?_
      most := ?_ }
  · rintro _ ⟨⟩ n hn
    obtain ⟨k, rfl, rfl⟩ := readCount_keeps hleast hn
    obtain ⟨m, hm, le⟩ := atLeast k rfl
    have := low m hm
    exact Int.mul_le_mul_of_nonneg_right (by omega) (Int.le_of_lt pos)
  · rintro _ ⟨⟩ n hn
    obtain ⟨k, rfl, rfl⟩ := readCount_keeps hmost hn
    obtain ⟨m, hm, le⟩ := atMost k rfl
    have := high m hm
    exact Int.mul_le_mul_of_nonneg_right (by omega) (Int.le_of_lt pos)

/-- **What the typed part of a document accepts meets the keywords of the document.** -/
theorem meetsOwn_of_typedAs (enforceable : Enforceable p members) (pv : v.Proper)
    (typed : TypedAs definitions resolving members path v) : MeetsOwn p members v := by
  cases typed with
  | scalar reads takes => exact meetsOwn_of_scalar enforceable pv reads takes
  | object as read takes => exact meetsOwn_of_object enforceable as read takes
  | array as read takes => exact meetsOwn_of_array enforceable as read takes
  | untyped type literal inferred =>
      have absent := absent_of_inferKind? inferred
      have no {keyword : String} {value : Json} (h : members.find? keyword = none)
          (found : members.find? keyword = some value) : False := by
        rw [h] at found
        cases found
      have range (e : RangeEnd) : members.find? e.keyword = none ∧
          members.find? e.exclusive = none := by
        cases e <;> exact ⟨absent _ (by decide), absent _ (by decide)⟩
      exact
        { type := fun _ found => (no type found).elim
          literal := fun _ found => (no literal found).elim
          range := fun _ _ e => ⟨fun _ found => (no (range e).1 found).elim,
            fun _ found => (no (range e).1 found).elim, fun _ found => (no (range e).2 found).elim⟩
          required := fun _ _ _ found => (no (absent "required" (by decide)) found).elim
          closed := fun _ _ found => (no (absent "additionalProperties" (by decide)) found).elim
          least := fun _ _ _ found => (no (absent "minItems" (by decide)) found).elim
          most := fun _ _ _ found => (no (absent "maxItems" (by decide)) found).elim }

/-! ## 3. Values inside a value -/

/-- A property of an accepted object is accepted by what is read from its document. -/
theorem property_of_typedAs {documents found : Keyed Json} {name : String} {document w : Json}
    (typed : TypedAs definitions resolving members path (.object found))
    (hd : members.find? "properties" = some (.object documents))
    (hn : (name, document) ∈ documents) (hw : found.find? name = some w) :
    ∃ s path, readAt definitions resolving document path = .ok s ∧ s.Takes w := by
  cases typed with
  | untyped _ _ inferred =>
      exact absurd (hd ▸ absent_of_inferKind? inferred "properties" (by decide)) (by simp)
  | scalar reads takes => cases takes.isScalar
  | array as read takes =>
      obtain ⟨items, length, least, most, rfl, _⟩ := readArray_cases read
      obtain ⟨_, e, _⟩ := accepts_array.1 takes.2
      cases e
  | object as read takes =>
      obtain ⟨properties, rules, defaults, rfl, _, ⟨none, _⟩ | ⟨documents', hd', hp⟩⟩ :=
        readObject_cases read
      · exact absurd (hd ▸ none) (by simp)
      · rw [hd] at hd'
        cases hd'
        obtain ⟨s, hs, read⟩ := (readProperties_keeps hp).2 name document hn
        obtain ⟨_, e, each, _⟩ := accepts_object.1 takes.2
        cases e
        have accepts := each name s hs
        simp only [AcceptsProperty, hw] at accepts
        exact ⟨s, _, read, takes.1.property hs, accepts⟩

/-- An item of an accepted array is accepted by what is read from the document of the items. -/
theorem item_of_typedAs {found : List Json} {document w : Json}
    (typed : TypedAs definitions resolving members path (.array found))
    (hd : members.find? "items" = some document) (single : ∀ list, document ≠ .array list)
    (hw : w ∈ found) : ∃ s path, readAt definitions resolving document path = .ok s ∧ s.Takes w := by
  cases typed with
  | untyped _ _ inferred =>
      exact absurd (hd ▸ absent_of_inferKind? inferred "items" (by decide)) (by simp)
  | scalar reads takes => cases takes.isScalar
  | object as read takes =>
      obtain ⟨properties, rules, defaults, rfl, _⟩ := readObject_cases read
      obtain ⟨_, e, _⟩ := accepts_object.1 takes.2
      cases e
  | array as read takes =>
      obtain ⟨items, length, least, most, rfl, _, _, _, _, each⟩ := readArray_cases read
      obtain ⟨_, e, _, accepts⟩ := accepts_array.1 takes.2
      cases e
      exact ⟨items, _, each document hd single, takes.1.items, accepts w hw⟩

/-! ## 4. Documents -/

/-- **What is accepted by the schema that is read from a document, at any place, meets the document.**
    By induction on the size of the document. -/
theorem meets_of_readAt {document : Json} {s : Schema}
    (free : ∀ members, Level document members → members.find? "$ref" = none)
    (enforceable : ∀ members, Level document members → Enforceable p members)
    (read : readAt definitions resolving document path = .ok s) (pv : v.Proper)
    (takes : s.Takes v) : Meets p document v := by
  induction hn : document.size using Nat.strongRecOn generalizing document path s v with
  | ind size ih =>
      subst hn
      cases document with
      | object members =>
          obtain ⟨typed, anyOf, allOf⟩ := takes_of_readAt (free members .self) read takes
          rw [Meets]
          refine ⟨meetsOwn_of_typedAs (enforceable members .self) pv typed, ?_, ?_, ?_, ?_⟩
          · rintro documents hd name inner hi found rfl w hw
            obtain ⟨t, place, read, takes⟩ := property_of_typedAs typed hd hi hw
            exact ih _ (size_lt_of_property hd hi) (fun m hm => free m (.property hd hi hm))
              (fun m hm => enforceable m (.property hd hi hm)) read
              (Json.properMembers_iff.1 pv.2 _ (Keyed.mem_of_find? hw)) takes rfl
          · rintro inner hi found rfl w hw
            cases inner with
            | array list => rw [Meets] <;> simp
            | _ =>
              obtain ⟨t, place, read, takes⟩ := item_of_typedAs typed hi (by simp) hw
              exact ih _ (size_lt_of_items hi) (fun m hm => free m (.items hi hm))
                (fun m hm => enforceable m (.items hi hm)) read (Json.properItems_iff.1 pv w hw)
                takes rfl
          · intro documents hd
            obtain ⟨inner, hi, b, read, takes⟩ := anyOf documents hd
            exact ⟨inner, hi, ih _ (size_lt_of_branch hd hi)
              (fun m hm => free m (.branch (Or.inl rfl) hd hi hm))
              (fun m hm => enforceable m (.branch (Or.inl rfl) hd hi hm)) read pv takes rfl⟩
          · intro documents hd inner hi
            obtain ⟨b, read, takes⟩ := allOf documents hd inner hi
            exact ih _ (size_lt_of_branch hd hi)
              (fun m hm => free m (.branch (Or.inr rfl) hd hi hm))
              (fun m hm => enforceable m (.branch (Or.inr rfl) hd hi hm)) read pv takes rfl
      | bool flag =>
          rw [Meets]
          cases flag with
          | true => rfl
          | false => rw [readAt] at read; cases read
      | _ => rw [Meets] <;> simp

/-- **What the schema of a document accepts meets the document, if reading loses nothing at any level
    of it.** -/
theorem meets_of_accepts {p : Precision} {document : Json} {s : Schema}
    (read : ofDocument document = .ok s)
    (free : ∀ members, Level document members → members.find? "$ref" = none)
    (enforceable : ∀ members, Level document members → Enforceable p members) :
    ∀ v : Json, v.Proper → s.accepts v = true → Meets p document v := by
  intro v pv accepted
  obtain ⟨read, sound⟩ := ofDocument_eq_ok_iff.1 read
  exact meets_of_readAt free enforceable read pv ⟨sound, accepted⟩

/-- Mode 1 or 2, said with a bound and literal values. -/
def modeKeywords : Keyed Json :=
  [("enum", .array [.int 1, .int 2]), ("exclusiveMinimum", .bool true), ("minimum", .int 0)]

/-- An object that has to say which mode is on, and nothing else. -/
def modeDocument : Json :=
  .object [("additionalProperties", .bool false),
    ("properties", .object [("mode", .object modeKeywords)]),
    ("required", .array [.text "mode"]), ("type", .text "object")]

def modeSchema : Schema :=
  .object [("mode", .scalar { kind := .integer, minimum := some ⟨.ofInt 0, true⟩,
                              enumeration := some [.int 1, .int 2] })]
    { required := ["mode"], isOpen := false }

theorem ofDocument_modeDocument : ofDocument modeDocument = .ok modeSchema := by
  have mode (path : Path) : readAt [] [] (.object modeKeywords) path =
      .ok (.scalar { kind := .integer, minimum := some ⟨.ofInt 0, true⟩,
                     enumeration := some [.int 1, .int 2] }) :=
    readAt_typed (by decide) (by rw [readTyped]; rfl)
  have properties : readProperties [] [] [("mode", .object modeKeywords)] .root =
      .ok [("mode", .scalar { kind := .integer, minimum := some ⟨.ofInt 0, true⟩,
                              enumeration := some [.int 1, .int 2] })] := by
    rw [readProperties, mode, readProperties]
    rfl
  exact ofDocument_eq_ok_iff.2
    ⟨readAt_typed (by decide) (readTyped_object rfl (readObject_eq rfl properties rfl)),
      isWellFormed_iff.1 (by decide +kernel)⟩

/-- The document has two levels. -/
theorem level_modeDocument {members : Keyed Json} (h : Level modeDocument members) :
    modeDocument = .object members ∨ members = modeKeywords := by
  cases h with
  | self => exact Or.inl rfl
  | items found => cases found
  | branch keyword found => rcases keyword with rfl | rfl <;> cases found
  | property found inner h =>
      cases found
      cases List.mem_singleton.1 inner
      cases h with
      | self => exact Or.inr rfl
      | items found => cases found
      | property found => cases found
      | branch keyword found => rcases keyword with rfl | rfl <;> cases found

theorem enforceable_modeDocument {members : Keyed Json} (h : Level modeDocument members) :
    Enforceable .written members := by
  have small (i : Int) (h : i.natAbs < 2 ^ 53) : Precision.written.Sharp (.int i) := isSmall_ofInt h
  rcases level_modeDocument h with e | rfl
  · cases e
    refine { range := fun e => ⟨fun _ h _ found => ?_, fun _ _ found => ?_⟩
             literal := fun _ found => (by cases found)
             scalars := fun _ _ found => (by cases found) }
    · cases e <;> rcases h with rfl | rfl <;> cases found
    · cases e <;> cases found
  · refine { range := fun e => ⟨fun _ h b found => ?_, fun _ _ _ found => ?_⟩
             literal := fun values found n hn => ?_
             scalars := fun _ _ _ found => (by cases found) }
    · cases e <;> rcases h with rfl | rfl <;> cases found
      exact small 0 (by decide)
    · cases e <;> cases found
    · cases found
      rcases List.mem_cons.1 hn with e | hn
      · cases e
        exact small 1 (by decide)
      · cases List.mem_singleton.1 hn
        exact small 2 (by decide)

theorem meets_of_accepts_mode :
    ofDocument modeDocument = .ok modeSchema ∧
      (∀ members, Level modeDocument members →
        members.find? "$ref" = none ∧ Enforceable .written members) ∧
      modeSchema.accepts (.object [("mode", .int 2)]) = true ∧
      Meets .written modeDocument (.object [("mode", .int 2)]) := by
  have levels (members : Keyed Json) (h : Level modeDocument members) :
      members.find? "$ref" = none ∧ Enforceable .written members := by
    refine ⟨?_, enforceable_modeDocument h⟩
    rcases level_modeDocument h with e | rfl
    · cases e
      rfl
    · rfl
  have accepted : modeSchema.accepts (.object [("mode", .int 2)]) = true := by decide +kernel
  have proper : (Json.object [("mode", .int 2)]).Proper :=
    ⟨List.pairwise_singleton _ _, show Number.Proper (.int 2) by simp [Number.Proper], trivial⟩
  exact ⟨ofDocument_modeDocument, levels, accepted,
    meets_of_accepts ofDocument_modeDocument (fun m h => (levels m h).1) (fun m h => (levels m h).2)
      _ proper accepted⟩

/-! ## 5. Where reading loses something -/

/-- A bound of 5, and a weaker one that is excluded itself. -/
def overwritten : Json :=
  .object [("exclusiveMinimum", .int 1), ("minimum", .int 5), ("type", .text "integer")]

/-- One object, listed beside the type. -/
def passedOver : Json :=
  .object [("enum", .array [.object [("mode", .int 1)]]), ("type", .text "object")]

/-- The first bound that double precision does not hold. -/
def rounded : Json := .object [("minimum", .int (2 ^ 53 + 1)), ("type", .text "integer")]

/-- **Reading loses a bound beside a weaker one, literal values beside a type that is no scalar's, and
    what is rounded.** -/
theorem accepts_what_is_excluded :
    (∃ s, ofDocument overwritten = .ok s ∧ s.accepts (.int 3) = true ∧
      ∀ p, ¬ Meets p overwritten (.int 3)) ∧
    (∃ s, ofDocument passedOver = .ok s ∧ s.accepts .emptyObject = true ∧
      ∀ p, ¬ Meets p passedOver .emptyObject) ∧
    ∃ s, ofDocument rounded = .ok s ∧ s.accepts (.int (2 ^ 53)) = true ∧
      ¬ Meets .written rounded (.int (2 ^ 53)) := by
  have pos := unitsPerOne_pos
  have integer (keywords : Keyed Json) (h : keywords.find? "type" = some (.text "integer")) :
      keywords.find? "type" = some (.text ScalarKind.integer.name) := h
  refine ⟨⟨.scalar { kind := .integer, minimum := some ⟨.ofInt 1, true⟩ }, ?_, ?_, ?_⟩,
    ⟨.object [] {}, ?_, ?_, ?_⟩,
    ⟨.scalar { kind := .integer, minimum := some ⟨.ofInt (2 ^ 53 + 1), false⟩ }, ?_, ?_, ?_⟩⟩
  · exact ofDocument_eq_ok_iff.2
      ⟨readAt_typed (by decide) (readTyped_scalar (integer _ rfl) rfl),
        isWellFormed_iff.1 (by decide +kernel)⟩
  · decide +kernel
  · intro p meets
    rw [overwritten, Meets] at meets
    have within := (meets.1.range (.int 3) rfl .low).inclusive (.int 5) rfl
    have sharp : p.Sharp (.int 5) := by
      cases p with
      | double => exact trivial
      | written => exact isSmall_ofInt (by decide)
    have le := sharp.le_iff.1.2 within
    exact absurd le (by decide +kernel)
  · exact ofDocument_eq_ok_iff.2
      ⟨readAt_typed (by decide) (readTyped_object rfl (by rw [readObject]; rfl)),
        isWellFormed_iff.1 (by decide +kernel)⟩
  · decide +kernel
  · intro p meets
    rw [passedOver, Meets] at meets
    obtain ⟨m, hm, e⟩ := meets.1.literal _ rfl
    cases List.mem_singleton.1 hm
    cases e
  · exact ofDocument_eq_ok_iff.2
      ⟨readAt_typed (by decide) (readTyped_scalar (integer _ rfl) rfl),
        isWellFormed_iff.1 (by decide +kernel)⟩
  · decide +kernel
  · intro meets
    rw [rounded, Meets] at meets
    have within : (2 ^ 53 + 1) * (unitsPerOne : Int) ≤ 2 ^ 53 * unitsPerOne :=
      (meets.1.range (.int (2 ^ 53)) rfl .low).inclusive (.int (2 ^ 53 + 1)) rfl
    omega

end Schema

end TypedPipeline
