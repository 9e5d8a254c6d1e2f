import TypedPipeline.Space.Compiler
import TypedPipeline.Proofs.Json.Characters
import TypedPipeline.Proofs.Schema.Written
import TypedPipeline.Proofs.Space.Names

/-!
# Proofs.Space.Caching: what a cache of spaces changes

A compiler keeps a space under the name and the text of its schema, and looks there before it checks
the schema. This file fixes:

* what compilation depends on: of the settings one alone (`compileSpace_congr`);
* keys: no text contains the separator, so a key is that of one name and one text (`key_inj`);
* requests and their answers (`Request`, `answers`). Without a cache each request is answered afresh
  (`answers_uncached`);
* what is kept at any time: the answers to requests made since the last clearing
  (`Remembers.serve`), all of which stay (`kept_of_serve`, `kept_afterAll`);
* **that a cache changes no answer exactly if every schema suits the spaces that may be kept under its
  key, and that schemas with finite hints and with declared defaults do**
  (`answers_withCache_eq_iff`);
* a schema that does not: it is malformed, but is written like one that is not
  (`answers_withCache_ne`).
-/

namespace TypedPipeline

/-! ## 1. What compilation depends on -/

section Settings

variable {settings settings' : SpaceSettings}

mutual

/-- Of the settings, compilation looks at one alone: whether branches may be dropped. -/
theorem compileNode_congr (h : settings.dropBranches = settings'.dropBranches) (s : Schema)
    (path : Path) : compileNode settings s path = compileNode settings' s path := by
  cases s with
  | any | scalar _ | allOf _ => rw [compileNode, compileNode]
  | object properties rules =>
      rw [compileNode, compileNode, compileProperties_congr h properties rules path]
  | array items length =>
      have each : compileNode settings items = compileNode settings' items :=
        funext (compileNode_congr h items)
      rw [compileNode, compileNode, each]
  | anyOf branches | oneOf branches =>
      rw [compileNode, compileNode, leafOutcomes_congr h branches path]

theorem compileProperties_congr (h : settings.dropBranches = settings'.dropBranches)
    (properties : List (String × Schema)) (rules : ObjectRules) (path : Path) :
    compileProperties settings properties rules path =
      compileProperties settings' properties rules path := by
  cases properties with
  | nil => rw [compileProperties, compileProperties]
  | cons p rest =>
      obtain ⟨name, property⟩ := p
      rw [compileProperties, compileProperties, compileNode_congr h property (path.property name),
        compileProperties_congr h rest rules path]

theorem leafOutcomes_congr (h : settings.dropBranches = settings'.dropBranches)
    (branches : List Schema) (path : Path) :
    leafOutcomes settings branches path = leafOutcomes settings' branches path := by
  cases branches with
  | nil => rw [leafOutcomes, leafOutcomes]
  | cons leaf rest =>
      have later := leafOutcomes_congr h rest path
      cases leaf with
      | anyOf inner | oneOf inner =>
          rw [leafOutcomes, leafOutcomes, leafOutcomes_congr h inner path, later]
      | _ =>
          rw [leafOutcomes, leafOutcomes, compileNode_congr h _ path, later, h]
          all_goals exact nofun

end

theorem compileSpace_congr (h : settings.dropBranches = settings'.dropBranches) (name : String)
    (schema : Schema) : compileSpace settings name schema = compileSpace settings' name schema := by
  simp only [compileSpace, compileNode_congr h]

end Settings

/-! ## 2. Keys -/

/-- A text ends at the last separator. -/
theorem append_separator_inj {α : Type} {separator : α} {xs ys us vs : List α}
    (hu : separator ∉ us) (hv : separator ∉ vs)
    (h : xs ++ separator :: us = ys ++ separator :: vs) : xs = ys ∧ us = vs := by
  rcases List.append_eq_append_iff.1 h with ⟨rest, rfl, e⟩ | ⟨rest, rfl, e⟩ <;> cases rest
  · cases e
    exact ⟨(List.append_nil _).symm, rfl⟩
  · cases e
    exact absurd (by simp) hu
  · cases e
    exact ⟨List.append_nil _, rfl⟩
  · cases e
    exact absurd (by simp) hv

theorem separator_notMem_text (s : Schema) : '\x00' ∉ s.text.toList := fun h =>
  absurd (Json.controlFree_compact s.toDocument _ h) (by decide)

namespace Compiler

/-- **Keys are equal only for one name and one text.** -/
theorem key_inj {name name' : String} {a b : Schema} :
    key name a = key name' b ↔ name = name' ∧ a.text = b.text := by
  constructor
  · intro h
    have chars : name.toList ++ '\x00' :: a.text.toList = name'.toList ++ '\x00' :: b.text.toList := by
      simpa [key, String.toList_append] using congrArg String.toList h
    obtain ⟨names, texts⟩ :=
      append_separator_inj (separator_notMem_text a) (separator_notMem_text b) chars
    exact ⟨String.toList_inj.1 names, String.toList_inj.1 texts⟩
  · rintro ⟨rfl, e⟩
    rw [key, key, e]

end Compiler

/-! ## 3. Requests -/

/-- What is asked of a compiler. -/
inductive Request where
  | compile (name : String) (schema : Schema)
  | clear

namespace Compiler

/-- The answer to a request, and the compiler after it. A clearing has no answer. -/
def serve (c : Compiler) : Request → Option (Except Fault Space) × Compiler
  | .compile name schema =>
      (some ((c.compile name schema).1.map (·.space)), (c.compile name schema).2)
  | .clear => (none, c.clear)

/-- The answers to requests, one after the other. -/
def answers (c : Compiler) : List Request → List (Option (Except Fault Space))
  | [] => []
  | r :: rest => (c.serve r).1 :: (c.serve r).2.answers rest

/-- What a compiler that keeps nothing answers to a request. -/
def fresh (settings : SpaceSettings) : Request → Option (Except Fault Space)
  | .compile name schema => some (compileSpace settings name schema)
  | .clear => none

variable {settings : SpaceSettings} {c : Compiler} {name : String} {schema : Schema}

theorem settings_serve (c : Compiler) (r : Request) : (c.serve r).2.settings = c.settings := by
  cases r with
  | clear => rfl
  | compile name schema =>
      simp only [serve, compile]
      split
      · rfl
      · split <;> rfl

theorem serve_of_kept {issued : IssuedSpace} (h : c.kept? (key name schema) = some issued) :
    c.serve (.compile name schema) = (some (.ok issued.space), c) := by
  simp only [serve, compile, h, Except.map]

theorem serve_of_not_kept (h : c.kept? (key name schema) = none) :
    (c.serve (.compile name schema)).1 = some (compileSpace c.settings name schema) := by
  simp only [serve, compile, h]
  split <;> simp [Except.map, *]

/-- **Without a cache every request is answered afresh.** -/
theorem answers_uncached (off : c.settings.cached = false) (requests : List Request) :
    c.answers requests = requests.map (fresh c.settings) := by
  induction requests generalizing c with
  | nil => rfl
  | cons r rest ih =>
      have same := settings_serve c r
      rw [answers, ih (by rw [same]; exact off), same, List.map_cons]
      cases r with
      | clear => rfl
      | compile name schema =>
          rw [serve_of_not_kept (by rw [kept?, off]; rfl)]
          rfl

/-! ## 4. What is kept -/

/-- A compilation was asked for, and nothing has been cleared since. -/
def Recent (before : List Request) (name : String) (schema : Schema) : Prop :=
  ∃ earlier later, before = earlier ++ .compile name schema :: later ∧ .clear ∉ later

theorem Recent.snoc {before : List Request} {name name' : String} {schema schema' : Schema}
    (h : Recent before name schema) : Recent (before ++ [.compile name' schema']) name schema := by
  obtain ⟨earlier, later, rfl, kept⟩ := h
  exact ⟨earlier, later ++ [.compile name' schema'], by simp, by simpa using kept⟩

theorem recent_last (before : List Request) (name : String) (schema : Schema) :
    Recent (before ++ [.compile name schema]) name schema := ⟨before, [], rfl, by simp⟩

/-- Every space that is kept is the answer to a recent request with its key. -/
def Remembers (before : List Request) (c : Compiler) : Prop :=
  ∀ k issued, c.kept.find? k = some issued → ∃ name a,
    Recent before name a ∧ key name a = k ∧ compileSpace c.settings name a = .ok issued.space

/-- **What is kept stays the answer to recent requests.** -/
theorem Remembers.serve {before : List Request} (h : c.Remembers before) (r : Request) :
    (c.serve r).2.Remembers (before ++ [r]) := by
  cases r with
  | clear => exact fun _ _ found => by cases found
  | compile name schema =>
      have older : c.Remembers (before ++ [.compile name schema]) := fun k issued found => by
        obtain ⟨name', a, recent, made⟩ := h k issued found
        exact ⟨name', a, recent.snoc, made⟩
      simp only [Compiler.serve, Compiler.compile]
      split
      · exact older
      · split
        · exact older
        · rename_i space made
          intro k issued found
          dsimp only at found ⊢
          split at found
          · rw [Keyed.find?_put] at found
            split at found
            · rename_i same
              cases found
              exact ⟨name, schema, recent_last before name schema, same, made⟩
            · exact older k issued found
          · exact older k issued found

/-- The compiler after requests. -/
def afterAll (c : Compiler) (requests : List Request) : Compiler :=
  requests.foldl (fun c r => (c.serve r).2) c

/-- A space that a compilation gives is kept. -/
theorem kept_of_serve (on : c.settings.cached = true) {space : Space}
    (h : (c.serve (.compile name schema)).1 = some (.ok space)) :
    ∃ issued, (c.serve (.compile name schema)).2.kept.find? (key name schema) = some issued ∧
      issued.space = space := by
  cases kept : c.kept? (key name schema) with
  | some issued =>
      rw [serve_of_kept kept] at h ⊢
      rw [kept?, if_pos on] at kept
      exact ⟨issued, kept, by simpa using h⟩
  | none =>
      simp only [serve, compile, kept] at h ⊢
      cases made : compileSpace c.settings name schema with
      | error e => rw [made] at h; simp [Except.map] at h
      | ok space' =>
          rw [made] at h
          dsimp only
          rw [if_pos on, Keyed.find?_put, if_pos rfl]
          exact ⟨_, rfl, by simpa [Except.map] using h⟩

/-- And it stays, as long as nothing is cleared. -/
theorem kept_afterAll {k : String} {issued : IssuedSpace} (on : c.settings.cached = true)
    (h : c.kept.find? k = some issued) {requests : List Request} (uncleared : .clear ∉ requests) :
    (c.afterAll requests).kept.find? k = some issued := by
  induction requests generalizing c with
  | nil => exact h
  | cons r rest ih =>
      obtain ⟨first, later⟩ := not_or.1 (List.mem_cons.not.1 uncleared)
      refine ih (by rw [settings_serve]; exact on) ?_ later
      cases r with
      | clear => exact absurd rfl first
      | compile name schema =>
          simp only [serve, compile]
          split
          · exact h
          · rename_i none'
            split
            · exact h
            · dsimp only
              rw [if_pos on, Keyed.find?_put]
              split
              · rename_i same
                rw [kept?, if_pos on, same, h] at none'
                cases none'
              · exact h

/-! ## 5. Runs -/

/-- Whatever space may be kept suits the request that it is kept for: a schema that is written as one
    compiled recently under the same name has the same space. -/
def Suits (settings : SpaceSettings) (requests : List Request) : Prop :=
  ∀ before name b after, requests = before ++ .compile name b :: after →
    ∀ a, Recent before name a → a.text = b.text →
      ∀ space, compileSpace settings name a = .ok space → compileSpace settings name b = .ok space

/-- A kept space that suits is what a compiler without a cache would give. -/
theorem serve_eq_fresh {before : List Request} {r : Request} {after : List Request}
    (suits : Suits c.settings (before ++ r :: after)) (remembers : c.Remembers before) :
    (c.serve r).1 = fresh c.settings r := by
  cases r with
  | clear => rfl
  | compile name schema =>
      cases kept : c.kept? (key name schema) with
      | none => exact serve_of_not_kept kept
      | some issued =>
          rw [serve_of_kept kept, fresh]
          rw [kept?] at kept
          split at kept
          · obtain ⟨name', a, recent, same, made⟩ := remembers _ issued kept
            obtain ⟨rfl, texts⟩ := key_inj.1 same
            rw [suits before name' schema after rfl a recent texts _ made]
          · cases kept

theorem answers_of_suits (before : List Request) {requests : List Request}
    (suits : Suits c.settings (before ++ requests)) (remembers : c.Remembers before) :
    c.answers requests = requests.map (fresh c.settings) := by
  induction requests generalizing c before with
  | nil => rfl
  | cons r rest ih =>
      have same := settings_serve c r
      have later := @ih (c.serve r).2 (before ++ [r]) (by rw [same]; simpa using suits)
        (remembers.serve r)
      rw [answers, later, same, serve_eq_fresh suits remembers, List.map_cons]

theorem answers_append (c : Compiler) (xs ys : List Request) :
    c.answers (xs ++ ys) = c.answers xs ++ (c.afterAll xs).answers ys := by
  induction xs generalizing c with
  | nil => rfl
  | cons r rest ih => rw [List.cons_append, answers, answers, ih]; rfl

theorem length_answers (c : Compiler) (requests : List Request) :
    (c.answers requests).length = requests.length := by
  induction requests generalizing c with
  | nil => rfl
  | cons r rest ih => rw [answers, List.length_cons, ih, List.length_cons]

theorem settings_afterAll (c : Compiler) (requests : List Request) :
    (c.afterAll requests).settings = c.settings := by
  induction requests generalizing c with
  | nil => rfl
  | cons r rest ih => exact (ih _).trans (settings_serve c r)

/-- Where all answers are fresh, the answer to each request is. -/
theorem serve_afterAll_eq {before : List Request} {r : Request} (after : List Request)
    (h : c.answers (before ++ r :: after) = (before ++ r :: after).map (fresh c.settings)) :
    ((c.afterAll before).serve r).1 = fresh c.settings r := by
  rw [answers_append, List.map_append] at h
  have rest := List.append_inj_right h (by rw [length_answers, List.length_map])
  rw [answers, List.map_cons] at rest
  exact List.head_eq_of_cons_eq rest

/-- **The answers of a compiler with a cache are those of one without exactly if no request is
    answered by a space that does not suit it.** -/
theorem answers_eq_iff (on : c.settings.cached = true) (empty : c.kept = []) {requests : List Request} :
    c.answers requests = requests.map (fresh c.settings) ↔ Suits c.settings requests := by
  constructor
  · rintro all before name b after rfl a ⟨earlier, between, rfl, uncleared⟩ texts space made
    have first : ((c.afterAll earlier).serve (.compile name a)).1 = some (.ok space) := by
      rw [← made]
      exact serve_afterAll_eq (between ++ .compile name b :: after) (by simpa using all)
    obtain ⟨issued, kept, same⟩ := kept_of_serve (by rw [settings_afterAll]; exact on) first
    have still := kept_afterAll (by rw [settings_serve, settings_afterAll]; exact on) kept uncleared
    have second := serve_afterAll_eq after all
    have on' : (c.afterAll (earlier ++ .compile name a :: between)).settings.cached = true := by
      rw [settings_afterAll]; exact on
    have found : (c.afterAll (earlier ++ .compile name a :: between)).kept? (key name b) =
        some issued := by
      rw [kept?, if_pos on', ← key_inj.2 ⟨rfl, texts⟩]
      simpa [afterAll] using still
    rw [serve_of_kept found] at second
    exact (Option.some.inj second).symm.trans (congrArg Except.ok same)
  · exact fun suits => answers_of_suits [] suits fun k issued found => by
      rw [empty] at found
      cases found

/-! ## 6. With a cache and without -/

/-- A new compiler that keeps spaces. -/
def withCache (settings : SpaceSettings) : Compiler := { settings := { settings with cached := true } }

/-- A new compiler that keeps none. -/
def withoutCache (settings : SpaceSettings) : Compiler :=
  { settings := { settings with cached := false } }

/-- The schemas that are to be compiled. -/
def schemas (requests : List Request) : List Schema :=
  requests.filterMap fun
    | .compile _ schema => some schema
    | .clear => none

theorem mem_schemas (name : String) {requests : List Request} (h : .compile name schema ∈ requests) :
    schema ∈ schemas requests :=
  List.mem_filterMap.2 ⟨_, h, rfl⟩

theorem fresh_congr {settings' : SpaceSettings}
    (h : settings.dropBranches = settings'.dropBranches) : fresh settings = fresh settings' := by
  funext r
  cases r with
  | clear => rfl
  | compile name schema => rw [fresh, fresh, compileSpace_congr h]

theorem suits_congr {settings' : SpaceSettings}
    (h : settings.dropBranches = settings'.dropBranches) {requests : List Request} :
    Suits settings requests ↔ Suits settings' requests := by
  simp only [Suits, compileSpace_congr h]

theorem answers_eq_iff_suits (settings : SpaceSettings) (requests : List Request) :
    (withCache settings).answers requests = (withoutCache settings).answers requests ↔
      Suits settings requests := by
  rw [answers_uncached (c := withoutCache settings) rfl,
    fresh_congr (show (withoutCache settings).settings.dropBranches =
      (withCache settings).settings.dropBranches from rfl), answers_eq_iff rfl rfl]
  exact suits_congr (show (withCache settings).settings.dropBranches = settings.dropBranches from rfl)

/-- A schema with declared defaults suits the space of whatever is written alike and has finite hints:
    that is the schema itself. -/
theorem suits_of_declared {requests : List Request}
    (each : ∀ s ∈ schemas requests, s.Proper ∧ s.FiniteHints ∧ s.DefaultsDeclared)
    (legible : ∀ a ∈ schemas requests, ∀ b ∈ schemas requests, a.text = b.text →
      a.toDocument = b.toDocument) : Suits settings requests := by
  rintro before name b after rfl a ⟨earlier, between, rfl, _⟩ texts space made
  have ha : a ∈ schemas (earlier ++ .compile name a :: between ++ .compile name b :: after) :=
    mem_schemas name (by simp)
  have hb : b ∈ schemas (earlier ++ .compile name a :: between ++ .compile name b :: after) :=
    mem_schemas name (by simp)
  -- only what compiles is kept, so the schema of the kept space is well-formed
  obtain ⟨sound, _⟩ := compiles_of_compileSpace made
  have same : a = b := Schema.eq_of_members_eq sound (each a ha).1 (each a ha).2.1 (each b hb).1
    (each b hb).2.2 (Json.object.inj (legible a ha b hb texts))
  rw [← same, made]

/-- **A compiler with a cache answers as one without exactly if no schema that is written like one
    compiled before under the same name, with nothing cleared since, compiles otherwise. It does so for
    all schemas with finite hints and with defaults for declared properties only, malformed ones
    included, if documents can be told from their texts.** -/
theorem answers_withCache_eq_iff (settings : SpaceSettings) (requests : List Request) :
    ((withCache settings).answers requests = (withoutCache settings).answers requests ↔
        Suits settings requests) ∧
      ((∀ s ∈ schemas requests, s.Proper ∧ s.FiniteHints ∧ s.DefaultsDeclared) →
        (∀ a ∈ schemas requests, ∀ b ∈ schemas requests, a.text = b.text →
          a.toDocument = b.toDocument) →
        (withCache settings).answers requests = (withoutCache settings).answers requests) := by
  exact ⟨answers_eq_iff_suits settings requests, fun each legible =>
    (answers_eq_iff_suits settings requests).2 (suits_of_declared each legible)⟩

/-- A flag that is required. -/
def flag : Schema :=
  .object [("x", .scalar { kind := .boolean })] { required := ["x"] }

/-- The same with a default for a property that there is not. It is malformed, and is written alike. -/
def strayFlag : Schema :=
  .object [("x", .scalar { kind := .boolean })]
    { required := ["x"], defaults := [("y", .bool true)] }

theorem compileSpace_flag (name : String) :
    compileSpace {} name flag =
      .ok ⟨⟨name, some (.object []), flag, flag⟩, [.plain "x" [.property "x"] .boolean]⟩ := by
  have free : flag.AllOfFree := by
    simp [Schema.AllOfFree, Schema.Every, Schema.parts, Schema.partsOfProperties, flag]
  refine compileSpace_of_compileNode (by decide) (Schema.domainPart_of_allOfFree free) ?_
  rw [flag, compileNode, compileProperties, compileNode, compileProperties]
  rfl

/-- A flag of two kinds, each compiled under one name. -/
theorem answers_withCache_eq_iff_flags :
    (∀ s ∈ [flag, Schema.boolean, flag], s.Proper ∧ s.FiniteHints ∧ s.DefaultsDeclared) ∧
      (∀ a ∈ [flag, Schema.boolean, flag], ∀ b ∈ [flag, Schema.boolean, flag], a.text = b.text →
        a.toDocument = b.toDocument) ∧
      (withCache {}).answers [.compile "s" flag, .compile "s" .boolean, .compile "s" flag] =
        (withoutCache {}).answers [.compile "s" flag, .compile "s" .boolean, .compile "s" flag] := by
  have each : ∀ s ∈ [flag, Schema.boolean, flag], s.Proper ∧ s.FiniteHints ∧ s.DefaultsDeclared := by
    simp [flag, Schema.boolean, Schema.Proper, Schema.FiniteHints, Schema.DefaultsDeclared,
      Schema.Every, Schema.parts, Schema.partsOfProperties, Schema.ProperPart, Scalar.Proper,
      ObjectRules.proper_plain_iff, Keyed.Ascending, Keyed.names]
  have different : flag.text ≠ Schema.boolean.text := by decide +kernel
  have legible : ∀ a ∈ [flag, Schema.boolean, flag], ∀ b ∈ [flag, Schema.boolean, flag],
      a.text = b.text → a.toDocument = b.toDocument := by
    simp [different, different.symm]
  exact ⟨each, legible, (answers_withCache_eq_iff {} [.compile "s" flag, .compile "s" .boolean,
    .compile "s" flag]).2 each legible⟩

/-- The stray default goes unnoticed if the schema without it was compiled before. -/
theorem answers_withCache_ne :
    (withCache {}).answers [.compile "s" flag, .compile "s" strayFlag] ≠
      (withoutCache {}).answers [.compile "s" flag, .compile "s" strayFlag] := by
  intro same
  rw [answers_eq_iff_suits] at same
  have alike : flag.text = strayFlag.text := by decide +kernel
  have malformed : strayFlag.isWellFormed = false := by decide +kernel
  have made := same [.compile "s" flag] "s" strayFlag [] rfl flag (recent_last [] "s" flag) alike _
    (compileSpace_flag "s")
  have sound := Schema.isWellFormed_iff.2 (compiles_of_compileSpace made).1
  rw [malformed] at sound
  cases sound

end Compiler

end TypedPipeline
