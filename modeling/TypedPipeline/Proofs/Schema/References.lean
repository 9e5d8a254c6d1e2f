import Mathlib.Logic.Relation
import TypedPipeline.Proofs.Schema.Expansion

/-!
# Proofs.Schema.References: what the reader comes to

Through references the reader comes to documents that are no parts of the one it is given. This file
fixes:

* the documents that it comes to, with the definitions being read there (`Visits`), and that a document
  is read only if all of them are (`Visits.read`);
* references to a definition that is being read (`Site.RefersBack`). They are refused where they stand
  (`Site.RefersBack.read`), so **a document with one in reach is malformed**
  (`exists_error_of_refersBack`);
* that **a cycle is reported for no other reason** (`exists_cycle_of_ofDocument`): the definition that
  is named in the report has been come to, and from it the reference back to it. Definitions that are
  referred to in several places, or one by another, are no cycle.
-/

namespace TypedPipeline

namespace Schema

/-! ## 1. What is read -/

/-- A document, where it stands, and the definitions that are being read there. -/
structure Site where
  resolving : List String
  document : Json
  place : Path

/-- A document that is read while another one is: the definition it refers to, or a part of it. -/
inductive ReadsNext (definitions : Keyed Json) : Site → Site → Prop
  | definition {resolving : List String} {members : Keyed Json} {place : Path} {reference : Json}
      {r : { r : String × Json // r.1 ∉ resolving ∧ definitions.find? r.1 = some r.2 }} :
      members.find? "$ref" = some reference →
      resolve definitions resolving reference place = .ok r →
      ReadsNext definitions ⟨resolving, .object members, place⟩ ⟨r.1.1 :: resolving, r.1.2, place⟩
  | part {resolving : List String} {members : Keyed Json} {place inside : Path} {document : Json} :
      members.find? "$ref" = none → members.has "not" = false →
      StandsIn members place document inside →
      ReadsNext definitions ⟨resolving, .object members, place⟩ ⟨resolving, document, inside⟩

/-- The reader comes from one document to another. -/
def Visits (definitions : Keyed Json) : Site → Site → Prop :=
  Relation.ReflTransGen (ReadsNext definitions)

def Site.read (definitions : Keyed Json) (site : Site) : Reading Schema :=
  readAt definitions site.resolving site.document site.place

/-- The document refers to a definition that is being read. -/
def Site.RefersBack (site : Site) (name : String) : Prop :=
  ∃ (members : Keyed Json) (reference : String), site.document = .object members ∧
    members.find? "$ref" = some (.text reference) ∧ referenceName? reference = some name ∧
    name ∈ site.resolving

variable {definitions members : Keyed Json} {resolving : List String} {path : Path}
  {x y : Site} {name : String}

/-- A reference is resolved by its name. -/
theorem resolve_eq_ok_iff {reference : Json}
    {r : { r : String × Json // r.1 ∉ resolving ∧ definitions.find? r.1 = some r.2 }} :
    resolve definitions resolving reference path = .ok r ↔
      ∃ text, reference = .text text ∧ referenceName? text = some r.1.1 := by
  constructor
  · intro h
    cases reference with
    | text text =>
        refine ⟨text, rfl, ?_⟩
        simp only [resolve, Json.asText?] at h
        split at h
        · cases h
        · rename_i name named
          split at h
          · cases h
          · split at h
            · cases h
            · cases h
              exact named
    | _ => cases h
  · rintro ⟨text, rfl, named⟩
    simp only [resolve, Json.asText?, named]
    rw [dif_neg r.2.1]
    split
    · rename_i found
      cases r.2.2.symm.trans found
    · rename_i target found
      exact congrArg Except.ok
        (Subtype.ext (Prod.ext rfl (Option.some.inj (found.symm.trans r.2.2))))

/-! ## 2. What is read is read whole -/

theorem exists_read_of_mem {read : Json → Path → Reading Schema} {items : List Json}
    {branches : List Schema} {item : Json} {place : Path}
    (h : items.mapM (read · place) = .ok branches) (hi : item ∈ items) :
    ∃ s, read item place = .ok s := by
  obtain ⟨s, _, read⟩ := (Except.mapM_eq_ok h).1 item hi
  exact ⟨s, read⟩

theorem exists_read_of_readBranches {read : Json → Path → Reading Schema} {keyword : String}
    {o : Option (List Schema)} {items : List Json} {item : Json}
    (h : readBranches read members path keyword = .ok o)
    (found : members.find? keyword = some (.array items)) (hi : item ∈ items) :
    ∃ s, read item path = .ok s := by
  rw [readBranches, found] at h
  obtain ⟨branches, hb, _⟩ := Except.bind_eq_ok.1 h
  exact exists_read_of_mem hb hi

/-- A document that is read is read as of each of its kinds. -/
theorem exists_readKind {read : Json → Path → Reading Schema} {o : Option Schema} {kind : String}
    (h : readKinds read members path = .ok o) (hk : kind ∈ kindsRead members) :
    ∃ several o', readKind read several members path kind = .ok o' := by
  rw [readKinds] at h
  obtain ⟨kinds, hkinds, h⟩ := Except.bind_eq_ok.1 h
  rw [kindsRead, kindsOf_root hkinds] at hk
  cases kinds with
  | untyped => cases hk
  | literal values => cases hk
  | listed kinds =>
      obtain ⟨branches, hb, _⟩ := Except.bind_eq_ok.1 h
      obtain ⟨o', _, read⟩ := (Except.mapM_eq_ok hb).1 kind hk
      exact ⟨_, o', read⟩

/-- A document that is read has all its parts read. -/
theorem exists_read_of_standsIn {read : Json → Path → Reading Schema} {s : Schema} {document : Json}
    {place : Path} (h : readParts read members path = .ok s)
    (inside : StandsIn members path document place) : ∃ t, read document place = .ok t := by
  rw [readParts] at h
  split at h
  · cases h
  obtain ⟨typed, ht, h⟩ := Except.bind_eq_ok.1 h
  obtain ⟨anyOf, hany, h⟩ := Except.bind_eq_ok.1 h
  obtain ⟨allOf, hall, h⟩ := Except.bind_eq_ok.1 h
  obtain ⟨oneOf, hone, h⟩ := Except.bind_eq_ok.1 h
  have asArray (array : "array" ∈ kindsRead members) :
      ∃ t, readArrayParts read members path = .ok t := by
    obtain ⟨_, o, h⟩ := exists_readKind ht array
    obtain ⟨t, ht, _⟩ := Except.bind_eq_ok.1 h
    exact ⟨t, ht⟩
  cases inside with
  | branch hk found hi =>
      simp only [combinators, List.mem_cons, List.not_mem_nil, or_false] at hk
      rcases hk with rfl | rfl | rfl
      · exact exists_read_of_readBranches hany found hi
      · exact exists_read_of_readBranches hall found hi
      · exact exists_read_of_readBranches hone found hi
  | property object found hd =>
      obtain ⟨_, o, h⟩ := exists_readKind ht object
      obtain ⟨s, h, _⟩ := Except.bind_eq_ok.1 h
      rw [readObjectParts, found] at h
      obtain ⟨properties, hp, _⟩ := Except.bind_eq_ok.1 h
      obtain ⟨p, _, read⟩ := (Except.mapM_eq_ok hp).1 _ hd
      obtain ⟨t, ht, _⟩ := Except.bind_eq_ok.1 read
      exact ⟨t, ht⟩
  | item array found hi =>
      obtain ⟨_, h⟩ := asArray array
      obtain ⟨least, _, h⟩ := Except.bind_eq_ok.1 h
      obtain ⟨most, _, h⟩ := Except.bind_eq_ok.1 h
      rw [found] at h
      obtain ⟨branches, hb, _⟩ := Except.bind_eq_ok.1 h
      exact exists_read_of_mem hb hi
  | eachItem array found no =>
      obtain ⟨_, h⟩ := asArray array
      obtain ⟨least, _, h⟩ := Except.bind_eq_ok.1 h
      obtain ⟨most, _, h⟩ := Except.bind_eq_ok.1 h
      rw [found] at h
      split at h
      · rename_i e
        cases e
      · rename_i items e
        cases e
        exact absurd rfl (no items)
      · rename_i e
        cases e
        obtain ⟨t, ht, _⟩ := Except.bind_eq_ok.1 h
        exact ⟨t, ht⟩

theorem ReadsNext.read {s : Schema} (next : ReadsNext definitions x y)
    (h : x.read definitions = .ok s) : ∃ t, y.read definitions = .ok t := by
  cases next with
  | definition found resolved =>
      rw [Site.read, readAt_reference found, resolved] at h
      exact ⟨s, h⟩
  | part reference negation inside =>
      rw [Site.read, readAt_eq_parts reference] at h
      exact exists_read_of_standsIn h inside

/-- **What is read has all documents read that the reader comes to.** -/
theorem Visits.read {s : Schema} (visits : Visits definitions x y)
    (h : x.read definitions = .ok s) : ∃ t, y.read definitions = .ok t := by
  induction visits with
  | refl => exact ⟨s, h⟩
  | tail _ next ih =>
      obtain ⟨t, ht⟩ := ih
      exact next.read ht

/-! ## 3. Cycles -/

/-- A reference to a definition that is being read is refused. -/
theorem Site.RefersBack.read (back : x.RefersBack name) :
    x.read definitions = .error ⟨x.place, .cyclicReference name⟩ := by
  obtain ⟨resolving, document, place⟩ := x
  obtain ⟨members, reference, rfl, found, named, being⟩ := back
  rw [Site.read, readAt_reference found]
  simp only [resolve, Json.asText?, named]
  rw [dif_pos being]
  rfl

theorem Site.RefersBack.being (back : x.RefersBack name) : name ∈ x.resolving := by
  obtain ⟨_, _, _, _, _, being⟩ := back
  exact being

/-- A definition is being read where the reader has come to it before. -/
theorem Visits.expanding {document : Json} (visits : Visits definitions ⟨[], document, path⟩ x)
    (being : name ∈ x.resolving) : ∃ rest target place,
      definitions.find? name = some target ∧
      Visits definitions ⟨[], document, path⟩ ⟨name :: rest, target, place⟩ ∧
      Visits definitions ⟨name :: rest, target, place⟩ x := by
  induction visits with
  | refl => cases being
  | tail visits next ih =>
      cases next with
      | @definition resolving members place reference r found resolved =>
          rcases List.mem_cons.1 being with rfl | being
          · exact ⟨_, _, _, r.2.2, visits.tail (.definition found resolved), .refl⟩
          · obtain ⟨rest, target, place, found', before, after⟩ := ih being
            exact ⟨rest, target, place, found', before, after.tail (.definition found resolved)⟩
      | part reference negation inside =>
          obtain ⟨rest, target, place, found, before, after⟩ := ih being
          exact ⟨rest, target, place, found, before, after.tail (.part reference negation inside)⟩

/-- A cycle that a reading reports is one as described. -/
def BlamesCycle (C : Path → String → Prop) (α : Type) (r _ : Reading α) : Prop :=
  ∀ e name, r = .error e → e.reason = .cyclicReference name → C e.path name

theorem along_blamesCycle (C : Path → String → Prop) :
    Along (m := Except Malformed) (n := Except Malformed) (BlamesCycle C) where
  pure a := fun _ _ h => nomatch h
  local_bind {α β r f g} none h := by
    cases r with
    | error e =>
        rintro _ name ⟨rfl⟩ cycle
        exact absurd ⟨name, cycle⟩ (none e rfl)
    | ok a => exact h a rfl
  bind {α β x y f g} hx h := by
    cases x with
    | error e =>
        rintro _ name ⟨rfl⟩ cycle
        exact hx e name rfl cycle
    | ok a => exact h a

/-- The reader comes from a document to one that refers to a definition being read. -/
def ComesBack (definitions : Keyed Json) (x : Site) (place : Path) (name : String) : Prop :=
  ∃ y, Visits definitions x y ∧ y.RefersBack name ∧ y.place = place

theorem ReadsNext.comesBack {place : Path} (next : ReadsNext definitions x y)
    (h : ComesBack definitions y place name) : ComesBack definitions x place name := by
  obtain ⟨z, visits, back⟩ := h
  exact ⟨z, .head next visits, back⟩

theorem comesBack_of_resolve {reference : Json} {e : Malformed}
    (found : members.find? "$ref" = some reference)
    (h : resolve definitions resolving reference path = .error e)
    (cycle : e.reason = .cyclicReference name) :
    ComesBack definitions ⟨resolving, .object members, path⟩ e.path name := by
  cases reference with
  | text reference =>
      simp only [resolve, Json.asText?] at h
      cases named : referenceName? reference with
      | none =>
          rw [named] at h
          cases h
          cases cycle
      | some target =>
          rw [named] at h
          dsimp only at h
          split at h
          · rename_i being
            cases h
            cases cycle
            exact ⟨_, .refl, ⟨members, reference, rfl, found, named, being⟩, rfl⟩
          · split at h
            · cases h
              cases cycle
            · cases h
  | _ =>
      cases h
      cases cycle

/-- **A cycle is reported only where there is one.** -/
theorem comesBack_of_readAt (resolving : List String) (document : Json) (path : Path) :
    BlamesCycle (ComesBack definitions ⟨resolving, document, path⟩) Schema
      (readAt definitions resolving document path)
      (readAt definitions resolving document path) := by
  induction resolving, document, path using readingInduction definitions with
  | plain resolving document path no =>
      intro e name h cycle
      rw [readAt_plain no] at h
      exact absurd ⟨name, cycle⟩ (FindsNoCycle.readPlain document e h)
  | reference resolving members path value found ih =>
      intro e name h cycle
      rw [readAt_reference found] at h
      cases resolved : resolve definitions resolving value path with
      | error e' =>
          rw [resolved] at h
          cases h
          exact comesBack_of_resolve found resolved cycle
      | ok r =>
          rw [resolved] at h
          exact ReadsNext.comesBack (.definition found resolved) (ih r resolved e name h cycle)
  | parts resolving members path found ih =>
      rw [readAt_eq_parts found]
      cases negation : members.has "not" with
      | true =>
          intro e name h cycle
          rw [readParts, negation] at h
          cases h
          cases cycle
      | false =>
          refine (along_blamesCycle _).readParts (partsAlong_self fun d p inside e name h cycle => ?_)
          exact ReadsNext.comesBack (.part found negation inside) (ih d p inside e name h cycle)

/-! ## 4. Reports of a whole document -/

/-- A fault that is no cycle, if there is one. -/
def NoCycle (fault : Option Malformation) : Prop := ∀ name, fault ≠ some (.cyclicReference name)

theorem NoCycle.orElse {a b : Option Malformation} (ha : NoCycle a) (hb : NoCycle b) :
    NoCycle (a <|> b) := by
  intro name
  cases a with
  | none => exact hb name
  | some reason => exact ha name

theorem FindsNoCycle.orMalformed {fault : Option Malformation} {path : Path} (h : NoCycle fault) :
    FindsNoCycle (orMalformed fault path) := by
  cases fault with
  | none => exact ok ()
  | some reason => exact error fun name e => h name (congrArg some e)

theorem NoCycle.map {α : Type} {o : Option α} {f : α → Malformation}
    (h : ∀ a name, f a ≠ .cyclicReference name) : NoCycle (o.map f) := by
  intro name e
  obtain ⟨a, _, e⟩ := Option.map_eq_some_iff.1 e
  exact h a name e

theorem noCycle_scalar (s : Scalar) : NoCycle s.malformation? := by
  have bound (b : Option Bound) : NoCycle (s.boundFault? b) := by
    unfold Scalar.boundFault?
    intro name
    grind
  refine .orElse (bound _) (.orElse (bound _) (.orElse ?_ (.orElse ?_ (.orElse ?_ ?_))))
  · unfold Scalar.rangeMalformation?
    intro name
    grind
  · unfold Scalar.optimizerMalformation?
    intro name
    grind
  · unfold Scalar.logMalformation?
    intro name
    grind
  · unfold Scalar.enumerationMalformation?
    split
    · exact fun _ => by simp
    · exact fun _ => by simp
    · exact .map (by simp)

theorem findsNoCycle_checkDefaults {properties : Keyed Schema} {path : Path}
    (defaults : Keyed Json) : FindsNoCycle (checkDefaults properties path defaults) := by
  induction defaults with
  | nil => exact .ok ()
  | cons d rest ih =>
      rw [checkDefaults]
      split
      · exact .error (by simp)
      · split
        · exact .error (by simp)
        · exact ih

/-- What is wrong with a schema that has been read is no cycle. -/
theorem findsNoCycle_checkWellFormedAt (s : Schema) (path : Path) :
    FindsNoCycle (s.checkWellFormedAt path) := by
  have union {bs : List Schema} {form : String} :
      NoCycle (if bs.isEmpty then some (.noBranch form) else none) := by
    intro name
    split <;> simp
  have each {ps : List (String × Schema)} {path : Path}
      (ih : ∀ name s, (name, s) ∈ ps → ∀ path, FindsNoCycle (s.checkWellFormedAt path)) :
      FindsNoCycle (checkProperties ps path) := by
    induction ps with
    | nil => exact .ok ()
    | cons p rest ihr =>
        exact (ih p.1 p.2 List.mem_cons_self _).bind fun _ =>
          ihr fun name s hs => ih name s (List.mem_cons_of_mem _ hs)
  have branches {bs : List Schema} {path : Path}
      (ih : ∀ b ∈ bs, ∀ path, FindsNoCycle (b.checkWellFormedAt path)) :
      FindsNoCycle (checkBranches bs path) := by
    induction bs with
    | nil => exact .ok ()
    | cons b rest ihr =>
        rw [checkBranches]
        exact (ih b List.mem_cons_self path).bind fun _ =>
          ihr fun c hc => ih c (List.mem_cons_of_mem _ hc)
  induction s using Schema.induction generalizing path with
  | any => exact .ok ()
  | scalar s => exact .orMalformed (noCycle_scalar s)
  | object properties rules ih =>
      exact .bind (.orMalformed (.orElse (.map (by simp)) (.map (by simp)))) fun _ =>
        .bind (each ih) fun _ => findsNoCycle_checkDefaults _
  | array items length ih =>
      refine (FindsNoCycle.orMalformed ?_).bind fun _ => ih _
      intro name
      unfold lengthMalformation?
      grind
  | anyOf bs ih => exact .bind (.orMalformed union) fun _ => branches ih
  | oneOf bs ih => exact .bind (.orMalformed union) fun _ => branches ih
  | allOf bs ih => exact .bind (.orMalformed union) fun _ => branches ih

/-- **A cycle is reported only where a definition is referred to while it is being read.** -/
theorem exists_cycle_of_ofDocument {document : Json} {e : Malformed}
    (h : ofDocument document = .error e) (cycle : e.reason = .cyclicReference name) :
    ∃ site rest target place, (definitionsOf document).find? name = some target ∧
      Visits (definitionsOf document) ⟨[], document, .root⟩ ⟨name :: rest, target, place⟩ ∧
      Visits (definitionsOf document) ⟨name :: rest, target, place⟩ site ∧
      site.RefersBack name ∧ site.place = e.path := by
  rw [ofDocument] at h
  cases read : readAt (definitionsOf document) [] document .root with
  | error e' =>
      rw [read] at h
      cases h
      obtain ⟨site, visits, back, at_path⟩ :=
        comesBack_of_readAt [] document .root e name read cycle
      obtain ⟨rest, target, place, found, before, after⟩ := visits.expanding back.being
      exact ⟨site, rest, target, place, found, before, after, back, at_path⟩
  | ok s =>
      rw [read] at h
      have none : FindsNoCycle (s.checkWellFormed >>= fun _ => .ok s) :=
        (findsNoCycle_checkWellFormedAt s .root).bind fun _ => .ok s
      exact absurd ⟨name, cycle⟩ (none e h)

/-- **A document in which the reader comes back to a definition it is reading is malformed.** -/
theorem exists_error_of_refersBack {document : Json}
    (visits : Visits (definitionsOf document) ⟨[], document, .root⟩ x) (back : x.RefersBack name) :
    ∃ e, ofDocument document = .error e := by
  cases h : ofDocument document with
  | error e => exact ⟨e, rfl⟩
  | ok s =>
      obtain ⟨t, ht⟩ := visits.read (ofDocument_eq_ok_iff.1 h).1
      cases back.read.symm.trans ht

end Schema

end TypedPipeline
