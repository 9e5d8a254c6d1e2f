import TypedPipeline.Proofs.Schema.Places
import TypedPipeline.Proofs.Schema.Tolerance

/-!
# Proofs.Schema.Harmony: intersections that stay sound when they are merged

Schemas are sound one by one, and so is the merge of two that tolerate each other. Whether a longer
intersection is merged into something sound can be said of its branches alone. This file fixes:

* when two schemas accord (`Accords`): at each place, what stands there in one of them tolerates what
  stands there in the other; and when branches are in harmony (`Harmony`): any two accord, and each with
  itself. Objects accord if their rules and their common properties do (`Accords.object`);
* that a merge of some branches may take their place among all of them (`Harmony.merged`);
* **that the merge of branches in harmony is sound** and keeps what the domain needs
  (`consistentSteps`), so that the domain of a schema with such intersections only is sound
  (`sound_domainPart`).
-/

namespace TypedPipeline

namespace Schema

/-! ## 1. Harmony -/

/-- What stands at a place in one schema tolerates whatever stands there in another one. -/
def Accords (a b : Schema) : Prop := ∀ p x y, StandsAt a p x → StandsAt b p y → x.Tolerates y

/-- All branches accord with each other, and each with itself. -/
def Harmony (branches : List Schema) : Prop := ∀ a ∈ branches, ∀ b ∈ branches, a.Accords b

/-- Branches that can be merged are in harmony, and a default is that of a property of which a `oneOf`
    inside loses nothing. -/
def HarmoniousPart : Schema → Prop
  | .object properties rules =>
    ∀ d ∈ rules.defaults, ∀ s, Keyed.find? properties d.1 = some s → s.OneOfUnconstrained
  | .allOf branches => ∀ m, intersectAll branches = some m → Harmony branches
  | _ => True

/-- All intersections inside are in harmony. -/
def Harmonious : Schema → Prop := Every HarmoniousPart

/-- What is carried along a merge: one schema is sound, and the intersections inside are in harmony. -/
structure ConsistentPart (s : Schema) : Prop where
  sound : SoundPart s
  regular : RegularPart s
  proper : ProperDefaults s
  harmonious : HarmoniousPart s

def Consistent : Schema → Prop := Every ConsistentPart

namespace Consistent

variable {s x : Schema} {p : Path}

theorem sound (h : s.Consistent) : s.Sound := fun t ht => (h t ht).sound

theorem regular (h : s.Consistent) : s.Regular := fun t ht => (h t ht).regular

theorem at_place (h : s.Consistent) (hx : StandsAt s p x) : x.Consistent := h.of_mem hx.mem_parts

theorem regularObject (h : s.Consistent) : RegularObject s := by
  cases s with
  | object properties rules => exact h.regular
  | _ => trivial

end Consistent

namespace Accords

theorem scalar {s t : Scalar} (h : s.Tolerates t) : Accords (.scalar s) (.scalar t) := by
  intro p x y hx hy
  cases hx
  cases hy
  exact h

theorem object {as bs : Keyed Schema} {rules others : ObjectRules}
    (self : ObjectRules.Tolerates as rules bs others)
    (common : ∀ e ∈ as, ∀ t, bs.find? e.1 = some t → e.2.Accords t) :
    Accords (.object as rules) (.object bs others) := by
  intro p x y hx hy
  cases hx with
  | self =>
      cases hy
      exact self
  | property found hx =>
      cases hy with
      | property found' hy => exact common _ (Keyed.mem_of_find? found) _ found' _ _ _ hx hy

end Accords

namespace Harmony

variable {m : Schema} {branches others rest : List Schema}

/-- Branches that others lead to, all along the same way, are in harmony as these are. -/
theorem inside (q : Path) (h : Harmony others)
    (lead : ∀ a ∈ branches, ∃ b ∈ others, ∀ p x, StandsAt a p x → StandsAt b (q ++ p) x) :
    Harmony branches := by
  intro a ha b hb p x y hx hy
  obtain ⟨a', ha', leadA⟩ := lead a ha
  obtain ⟨b', hb', leadB⟩ := lead b hb
  exact h a' ha' b' hb' (q ++ p) x y (leadA p x hx) (leadB p y hy)

theorem mono (h : Harmony others) (sub : ∀ b ∈ branches, b ∈ others) : Harmony branches :=
  h.inside [] fun b hb => ⟨b, sub b hb, fun _ _ => id⟩

theorem pair_iff {a b : Schema} :
    Harmony [a, b] ↔ (a.Accords a ∧ a.Accords b) ∧ b.Accords a ∧ b.Accords b := by
  simp [Harmony]

/-- Two branches tolerate each other and themselves. -/
theorem pair {a b : Schema} (h : Harmony [a, b]) :
    (a.Tolerates a ∧ a.Tolerates b) ∧ b.Tolerates a ∧ b.Tolerates b := by
  have self {x y : Schema} (h : x.Accords y) : x.Tolerates y := h [] x y (.self x) (.self y)
  obtain ⟨⟨aa, ab⟩, ba, bb⟩ := pair_iff.1 h
  exact ⟨⟨self aa, self ab⟩, self ba, self bb⟩

/-- **A merge may take the place of what is merged.** What stands at a place in the merge is tolerated,
    first, by what stands there in any branch, and from this by what stands there in the merge. -/
theorem merged (group : List Schema) (h : Harmony (group ++ rest)) (each : ∀ b ∈ group ++ rest, b.Consistent)
    (hm : m.Consistent)
    (kept : ∀ {P : Schema → Prop}, KeptByMerging P → ∀ {p : Path}, (∀ b ∈ group, AllAt P b p) →
      AllAt P m p) : Harmony (m :: rest) := by
  have outside (a : Schema) (ha : a ∈ group ++ rest) (p : Path) (x : Schema) (hx : StandsAt a p x) :
      AllAt (fun z => RegularObject z ∧ z.Tolerates x ∧ x.Tolerates z) m p := by
    refine kept (.tolerance ((each a ha).at_place hx).self.proper) fun b hb z hz => ?_
    have hb := List.mem_append_left rest hb
    exact ⟨((each b hb).at_place hz).regularObject, h b hb a ha p z x hz hx, h a ha b hb p x z hx hz⟩
  have within (p : Path) (x : Schema) (hx : StandsAt m p x) :
      AllAt (fun z => RegularObject z ∧ z.Tolerates x ∧ x.Tolerates z) m p := by
    refine kept (.tolerance (hm.at_place hx).self.proper) fun b hb z hz => ?_
    have hb := List.mem_append_left rest hb
    have tolerance := (outside b hb p z hz x hx).2
    exact ⟨((each b hb).at_place hz).regularObject, tolerance.2, tolerance.1⟩
  refine List.forall_mem_cons.2 ⟨List.forall_mem_cons.2 ⟨?_, ?_⟩, fun a ha =>
    List.forall_mem_cons.2 ⟨?_, ?_⟩⟩
  · exact fun p x y hx hy => (within p y hy x hx).2.1
  · exact fun b hb p x y hx hy => (outside b (List.mem_append_right _ hb) p y hy x hx).2.1
  · exact fun p x y hx hy => (outside a (List.mem_append_right _ ha) p x hx y hy).2.2
  · exact fun b hb => h a (List.mem_append_right _ ha) b (List.mem_append_right _ hb)

end Harmony

/-! ## 2. Merging branches in harmony -/

/-- The merge of two objects that tolerate each other is consistent, the properties apart. -/
theorem consistentPart_meet {rules others : ObjectRules} {as bs merged : Keyed Schema}
    (merges : Merges rules others as bs merged) (ca : (object as rules).Consistent)
    (cb : (object bs others).Consistent)
    (aa : ObjectRules.Tolerates as rules as rules) (ab : ObjectRules.Tolerates as rules bs others)
    (ba : ObjectRules.Tolerates bs others as rules) (bb : ObjectRules.Tolerates bs others bs others) :
    ConsistentPart (object merged (rules.meet others as bs merged)) := by
  have self : ObjectRules.Tolerates merged (rules.meet others as bs merged) merged
      (rules.meet others as bs merged) :=
    .meet_left (.meet_right merges ca.regular cb.regular ca.self.proper aa ab)
      (.meet_right merges ca.regular cb.regular cb.self.proper ba bb)
  exact ⟨.meet merges ca.self.regular cb.self.regular ca.self.sound cb.self.sound ab ba self,
    KeptByMerging.regularPart.object merges ca.self.regular cb.self.regular,
    KeptByMerging.properDefaults.object merges ca.self.proper cb.self.proper,
    fun d hd s found => (self.default d hd s found).2⟩

/-- The induction is along the merge. -/
theorem consistentSteps :
    MergeSteps (fun a b m => a.Consistent → b.Consistent → Harmony [a, b] → m.Consistent)
      (fun branches m => (∀ b ∈ branches, b.Consistent) → Harmony branches → m.Consistent) where
  symm h cb ca harmony := h ca cb (harmony.mono (by simp))
  any _ _ cs _ := cs
  allOf {branches merged b m} e hall h ca cb harmony := by
    have each : ∀ c ∈ branches, c.Consistent := fun _ hc => ca.allOf hc
    have parts : Harmony (branches ++ [b]) := harmony.inside [] fun c hc => by
      rcases List.mem_append.1 hc with hc | hc
      · exact ⟨_, List.mem_cons_self, fun p x hx => .branch hc hx⟩
      · exact ⟨c, List.mem_cons_of_mem _ hc, fun _ _ => id⟩
    have cm := hall each (parts.mono fun c hc => List.mem_append_left _ hc)
    refine h cm cb (Harmony.merged branches parts
      (by simpa [or_imp, forall_and] using ⟨each, cb⟩) cm fun kept =>
        kept.at_place_all (fun c hc => (each c hc).regular) e)
  scalar {x y _} h cx cy harmony := by
    obtain ⟨⟨xx, xy⟩, yx, yy⟩ := harmony.pair
    refine every_scalar ⟨Scalar.Sound.meet h ?_ ?_ ?_,
      Scalar.Regular.meet h cx.regular.self cy.regular.self, trivial, trivial⟩
    · simpa using ⟨cx.sound.self, cy.sound.self⟩
    · simpa using ⟨cx.regular.self, cy.regular.self⟩
    · simpa using ⟨⟨xx, xy⟩, yx, yy⟩
  object {as bs rules others _} h ih ca cb harmony := by
    have merges := merges_meetProperties ca.regular.self.1 cb.regular.self.1 h
    obtain ⟨⟨aa, ab⟩, ba, bb⟩ := harmony.pair
    refine Every.object_iff.2 ⟨consistentPart_meet merges ca cb aa ab ba bb, ?_⟩
    refine merges.every (fun _ _ hs => ca.property hs) (fun _ _ hs => cb.property hs)
      fun name x y z hx hy e => ?_
    refine ih name x y z hx hy e (ca.property (Keyed.mem_of_find? hx))
      (cb.property (Keyed.mem_of_find? hy)) (harmony.inside [.property name] ?_)
    have leadA : ∀ p w, StandsAt x p w → StandsAt (.object as rules) (.property name :: p) w :=
      fun _ _ => .property hx
    have leadB : ∀ p w, StandsAt y p w → StandsAt (.object bs others) (.property name :: p) w :=
      fun _ _ => .property hy
    simpa using ⟨.inl leadA, .inr leadB⟩
  array {x y _ length length'} h ca cb harmony := by
    obtain ⟨⟨xx, xy⟩, yx, yy⟩ := harmony.pair
    refine Every.array_iff.2 ⟨⟨fun n hn k hk => ?_, trivial, trivial, trivial⟩,
      h ca.items cb.items (harmony.inside [.items] ?_)⟩
    · rcases Length.least_of_meet hn with hn | hn <;> rcases Length.most_of_meet hk with hk | hk
      · exact xx n hn k hk
      · exact xy n hn k hk
      · exact yx n hn k hk
      · exact yy n hn k hk
    · have leadX : ∀ p w, StandsAt x p w → StandsAt (.array x length) (.items :: p) w :=
        fun _ _ => .items
      have leadY : ∀ p w, StandsAt y p w → StandsAt (.array y length') (.items :: p) w :=
        fun _ _ => .items
      simpa using ⟨.inl leadX, .inr leadY⟩
  single s cs _ := cs s (by simp)
  cons {a b _ _ rest} e h hall cs harmony := by
    have ca : a.Consistent := cs a (by simp)
    have cb : b.Consistent := cs b (by simp)
    have cm := h ca cb (harmony.mono (by simp))
    refine hall (List.forall_mem_cons.2 ⟨cm, fun c hc => cs c (by simp [hc])⟩) ?_
    refine Harmony.merged [a, b] harmony cs cm fun kept p all => ?_
    exact kept.at_place ca.regular cb.regular e (all a (by simp)) (all b (by simp))

/-! ## 3. The domain -/

theorem find?_domainProperties (properties : Keyed Schema) (name : String) :
    Keyed.find? (domainProperties properties) name = (properties.find? name).map domainPart := by
  rw [domainProperties_eq_map]
  induction properties with
  | nil => rfl
  | cons p rest ih =>
      rw [List.map_cons, Keyed.find?_cons, Keyed.find?_cons, ih]
      split <;> rfl

/-- Defaults are kept by the properties of the domain, which accept at least as much. -/
theorem sound_domainProperties {properties : Keyed Schema} {rules : ObjectRules}
    (h : (object properties rules).Consistent) : rules.Sound (domainProperties properties) := by
  have declared (name : String) :
      Keyed.has (domainProperties properties) name = Keyed.has properties name := by
    rw [Keyed.has, Keyed.has, find?_domainProperties, Option.isSome_map]
  refine ⟨fun name hn => ?_, fun names hn name hm => ?_, fun d hd => ?_⟩
  · exact (declared name).trans (h.self.sound.required name hn)
  · exact (declared name).trans (h.self.sound.relevant names hn name hm)
  · obtain ⟨s, found, accepted⟩ := h.self.sound.default d hd
    have regular := h.regular.property (Keyed.mem_of_find? found)
    refine ⟨s.domainPart, by rw [find?_domainProperties, found]; rfl, ?_⟩
    exact covers_domainPart regular (h.self.harmonious d hd s found) d.2 (h.self.proper d hd) accepted

/-- **The domain is sound where all intersections inside are in harmony.** -/
theorem Consistent.sound_domainPart {s : Schema} (h : s.Consistent) : s.domainPart.Sound := by
  induction s using domainInduction with
  | any =>
      rw [domainPart]
      exact h.sound
  | scalar s =>
      rw [domainPart]
      exact h.sound
  | object properties rules ih =>
      exact every_domainPart_object (sound_domainProperties h) fun name s hs =>
        ih name s hs (h.property hs)
  | array items length ih => exact every_domainPart_array h.self.sound (ih h.items)
  | anyOf branches ih =>
      refine every_domainPart_anyOf ?_ fun b hb => ih b hb (h.anyOf hb)
      simpa [SoundPart, domainBranches_eq_map] using h.self.sound
  | oneOf branches ih =>
      refine every_domainPart_oneOf ?_ fun b hb => ih b hb (h.oneOf hb)
      simpa [SoundPart, domainBranches_eq_map] using h.self.sound
  | merged branches m e ih =>
      rw [domainPart_allOf, e]
      exact ih (consistentSteps.of_intersectAll e (fun b hb => h.allOf hb) (h.self.harmonious m e))
  | unmerged branches e ih =>
      rw [domainPart_allOf, e]
      cases branches with
      | nil => exact absurd rfl h.self.sound
      | cons first rest => exact ih (h.allOf (by simp))

theorem Harmonious.consistent {s : Schema} (h : s.Harmonious) (sound : s.Sound) (proper : s.Proper) :
    s.Consistent := by
  intro t ht
  refine ⟨sound t ht, sound.regular proper t ht, ?_, h t ht⟩
  have proper := proper t ht
  cases t with
  | object properties rules => exact proper.2.values
  | _ => trivial

end Schema

end TypedPipeline
