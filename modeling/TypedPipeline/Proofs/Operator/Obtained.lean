import TypedPipeline.Proofs.Operator.Alternatives
import TypedPipeline.Proofs.Operator.Hyperparameters
import TypedPipeline.Proofs.Operator.Reconstruction
import TypedPipeline.Proofs.Space.Faults

/-!
# Proofs.Operator.Obtained: what every operator keeps to

Leaves are checked when they are built, and composites are not checked at all. This file fixes:

* the ways in which operators are obtained (`Operator.Obtained`), and that they all come down to
  leaves under any name, combining, and naming what has been combined (`Operator.Obtained.madeFrom`);
* that a signature derived from well-formed signatures is well formed
  (`Combinator.wellFormed_of_derive`): the parts of children stand under declared keys, and a union of
  well-formed schemas is never empty (`Schema.sound_unionOf`);
* **that every node of every operator has a well-formed signature, which is the one derived from its
  children**, so that no compiler calls its hyperparameters malformed
  (`Operator.Obtained.keepsSignatures`).
-/

namespace TypedPipeline

/-! ## 1. The ways of obtaining operators -/

/-- The operators that are obtained by building leaves, combining, naming, and reconstructing from a
    registry of such operators. -/
inductive Operator.Obtained : Operator → Prop where
  | built {parts : LeafParts} {op : Operator} : parts.build = .ok op → Obtained op
  | combined {combinator : Combinator} {ops : List Operator} {op : Operator} :
      (∀ part ∈ ops, Obtained part) → combinator.combine ops = .ok op → Obtained op
  | andThen {first second op : Operator} : Obtained first → Obtained second →
      first.andThen second = .ok op → Obtained op
  | orElse {first second op : Operator} : Obtained first → Obtained second →
      first.orElse second = .ok op → Obtained op
  | beside {first second op : Operator} : Obtained first → Obtained second →
      first.beside second = .ok op → Obtained op
  | renamed {op : Operator} (name : String) : Obtained op → Obtained (op.rename name)
  | reconstructed {r : Registry} {description : Description} {op : Operator} :
      (∀ name part, r.get name = .ok part → Obtained part) →
      r.reconstruct description = .ok op → Obtained op

variable {op part : Operator} {children : List Operator} {combinator : Combinator}
  {signature : Signature} {r : Registry} {schemas : List Schema}

/-- A leaf that has been built, perhaps under another name. -/
def Operator.IsBuiltLeaf (op : Operator) : Prop :=
  ∃ (parts : LeafParts) (leaf : Operator) (name : String),
    parts.build = .ok leaf ∧ op = leaf.rename name

/-- The schemas are well formed. -/
structure Signature.WellFormed (signature : Signature) : Prop where
  input : signature.input.isWellFormed = true
  output : signature.output.isWellFormed = true
  hyperparameters : signature.hyperparameters.isWellFormed = true

theorem LeafParts.checkSchema_eq_ok {s : Schema} (h : checkSchema s = .ok ()) :
    s.isWellFormed = true := by
  unfold checkSchema at h
  split at h
  · rename_i checked
    exact Except.isOk_iff.2 ⟨_, checked⟩
  · cases h

/-- What is built is a leaf, and its schemas have been checked. -/
theorem LeafParts.build_eq_ok {parts : LeafParts} (h : parts.build = .ok op) :
    op = .leaf parts.name parts.handle ⟨parts.input, parts.output, parts.hyperparameters⟩ ∧
      op.signature.WellFormed := by
  unfold build at h
  split at h
  · cases h
  · obtain ⟨_, input, h⟩ := Except.bind_eq_ok.1 h
    obtain ⟨_, output, h⟩ := Except.bind_eq_ok.1 h
    obtain ⟨_, hyperparameters, h⟩ := Except.bind_eq_ok.1 h
    cases h
    exact ⟨rfl, checkSchema_eq_ok input, checkSchema_eq_ok output,
      checkSchema_eq_ok hyperparameters⟩

namespace Operator

theorem rename_rename (op : Operator) (first second : String) :
    (op.rename first).rename second = op.rename second := by
  cases op <;> rfl

theorem isLeaf_rename (op : Operator) (name : String) : (op.rename name).isLeaf = op.isLeaf := by
  cases op <;> rfl

theorem signature_rename (op : Operator) (name : String) :
    (op.rename name).signature = op.signature := by
  cases op <;> rfl

theorem isLeaf_of_build {parts : LeafParts} (h : parts.build = .ok op) : op.isLeaf = true := by
  rw [(LeafParts.build_eq_ok h).1]
  rfl

/-- A name may be given to leaves as well, where the leaves under other names are leaves of the kind. -/
theorem MadeFrom.rename (h : op.MadeFrom IsBuiltLeaf) (name : String) :
    (op.rename name).MadeFrom IsBuiltLeaf := by
  by_cases isLeaf : op.isLeaf = true
  · obtain ⟨parts, leaf, old, built, rfl⟩ := h.kind_of_isLeaf isLeaf
    refine .leaf ((isLeaf_rename _ name).trans isLeaf) ⟨parts, leaf, name, built, ?_⟩
    rw [rename_rename]
  · exact h.renamed (by simpa using isLeaf)

end Operator

theorem Registry.mem_of_get {name : String} (h : r.get name = .ok op) : (name, op) ∈ r.operators := by
  unfold get at h
  split at h
  · rename_i found
    cases h
    exact Keyed.mem_of_find? found
  · cases h

mutual

/-- What is reconstructed is combined from what the registry has. -/
theorem Registry.madeFrom_reconstruct
    (held : ∀ name part, r.get name = .ok part → part.MadeFrom Operator.IsBuiltLeaf) :
    ∀ (description : Description) (op : Operator), r.reconstruct description = .ok op →
      op.MadeFrom Operator.IsBuiltLeaf
  | .leaf name, op, h => held name op (by rwa [Registry.reconstruct] at h)
  | .composite combinator name children, op, h => by
      rw [Registry.reconstruct] at h
      obtain ⟨ops, made, h⟩ := Except.bind_eq_ok.1 h
      obtain ⟨combined, hc, h⟩ := Except.bind_eq_ok.1 h
      have own : combined.MadeFrom Operator.IsBuiltLeaf :=
        .combination (Registry.madeFrom_reconstructAll held children ops made) hc
      cases name with
      | none => cases h; exact own
      | some name => cases h; exact own.rename name

theorem Registry.madeFrom_reconstructAll
    (held : ∀ name part, r.get name = .ok part → part.MadeFrom Operator.IsBuiltLeaf) :
    ∀ (descriptions : List Description) (ops : List Operator),
      r.reconstructAll descriptions = .ok ops → ∀ op ∈ ops, op.MadeFrom Operator.IsBuiltLeaf
  | [], ops, h => by
      rw [Registry.reconstructAll] at h
      cases h
      simp
  | description :: rest, ops, h => by
      rw [Registry.reconstructAll] at h
      obtain ⟨first, hf, h⟩ := Except.bind_eq_ok.1 h
      obtain ⟨later, hl, h⟩ := Except.bind_eq_ok.1 h
      cases h
      exact List.forall_mem_cons.2 ⟨Registry.madeFrom_reconstruct held description first hf,
        Registry.madeFrom_reconstructAll held rest later hl⟩

end

/-- **Every operator comes down to built leaves, combining, and naming what has been combined.** -/
theorem Operator.Obtained.madeFrom (h : op.Obtained) : op.MadeFrom IsBuiltLeaf := by
  have both {first second : Operator} (hf : first.MadeFrom IsBuiltLeaf)
      (hs : second.MadeFrom IsBuiltLeaf) : ∀ part ∈ [first, second], part.MadeFrom IsBuiltLeaf := by
    simpa using ⟨hf, hs⟩
  induction h with
  | @built parts op made =>
      refine .leaf (isLeaf_of_build made) ⟨parts, op, op.name, made, ?_⟩
      cases op <;> rfl
  | combined _ combined ih => exact .combination ih combined
  | andThen _ _ combined hf hs | orElse _ _ combined hf hs | beside _ _ combined hf hs =>
      exact .combination (both hf hs) combined
  | renamed name _ ih => exact ih.rename name
  | reconstructed _ made ih => exact Registry.madeFrom_reconstruct ih _ _ made

/-! ## 2. Derived signatures -/

namespace Schema

/-- **The union of well-formed schemas is well formed.** -/
theorem sound_unionOf (some : schemas ≠ []) (each : ∀ s ∈ schemas, s.Sound) :
    (unionOf schemas).Sound := by
  have members : ∀ m ∈ flattenUnions schemas, m.Sound := by
    intro m hm
    obtain ⟨s, hs, hm⟩ := mem_flattenUnions.1 hm
    exact (each s hs).of_mem (mem_parts_of_mem_alternatives hm)
  obtain ⟨s, hs⟩ := List.exists_mem_of_ne_nil _ some
  obtain ⟨m, hm⟩ := (each s hs).exists_alternative
  exact holds_of_unionOf members (List.ne_nil_of_mem (mem_flattenUnions.2 ⟨s, hs, hm⟩))
    fun branches ne each => Every.anyOf_iff.2 ⟨ne, each⟩

/-- The object of the parts of all children is well formed if they are. -/
theorem sound_keyedObject {part : Operator → Schema} (isOpen : Bool)
    (each : ∀ child ∈ children, (part child).Sound) :
    (Schema.object (Keyed.ofList (keyedParts children part))
      { required := Names.ofList (childKeys children), isOpen }).Sound := by
  have declared (key : String) (child : Operator) (hc : (key, child) ∈ keyedChildren children) :
      (Keyed.ofList (keyedParts children part)).find? key = some (part child) :=
    find?_keyedParts.2 ⟨child, hc, rfl⟩
  refine Every.object_iff.2 ⟨⟨fun name hn => ?_, by simp, by simp⟩, fun name s hs => ?_⟩
  · obtain ⟨child, hc⟩ := mem_childKeys_iff.1 (Names.mem_ofList.1 hn)
    rw [Keyed.has, declared name child hc]
    rfl
  · have nodup := Keyed.nodup_of_ascending (Keyed.ascending_ofList (keyedParts children part))
    obtain ⟨child, hc, rfl⟩ := find?_keyedParts.1 (Keyed.find?_of_mem nodup hs)
    exact each child (keyedChildren_children children ▸ List.mem_map_of_mem hc)

theorem sound_closedKeyedObject {part : Operator → Schema}
    (each : ∀ child ∈ children, (part child).Sound) : (closedKeyedObject children part).Sound := by
  rw [closedKeyedObject_eq]
  exact sound_keyedObject false each

theorem sound_selecting {key : String} {inner : Schema} (h : inner.Sound) :
    (selecting key inner).Sound := by
  refine Every.object_iff.2 ⟨⟨?_, by simp, by simp⟩, ?_⟩
  · simp [Keyed.has, Keyed.find?_cons]
  · intro name s hs
    cases List.mem_singleton.1 hs
    exact h

/-- A selection among the hyperparameters of children is well formed if they are. -/
theorem sound_selections {part : Operator → Schema} (some : children ≠ [])
    (each : ∀ child ∈ children, (part child).Sound) :
    (Schema.oneOf (selections (keyedParts children part))).Sound := by
  refine Every.oneOf_iff.2 ⟨fun none => some ?_, fun b hb => ?_⟩
  · have none : keyedChildren children = [] := by simpa [selections, keyedParts] using none
    rw [← keyedChildren_children children, none]
    rfl
  · obtain ⟨_, he, rfl⟩ := List.mem_map.1 hb
    obtain ⟨⟨key, child⟩, hc, rfl⟩ := List.mem_map.1 he
    exact sound_selecting (each child (keyedChildren_children children ▸ List.mem_map_of_mem hc))

end Schema

/-- **A signature derived from well-formed signatures is well formed.** -/
theorem Combinator.wellFormed_of_derive (derived : combinator.derive children = .ok signature)
    (each : ∀ child ∈ children, child.signature.WellFormed) : signature.WellFormed := by
  have inputs : ∀ child ∈ children, (inputOf child).Sound := fun child hc =>
    Schema.isWellFormed_iff.1 (each child hc).input
  have outputs : ∀ child ∈ children, (outputOf child).Sound := fun child hc =>
    Schema.isWellFormed_iff.1 (each child hc).output
  have hyperparameters : ∀ child ∈ children, (hyperparametersOf child).Sound := fun child hc =>
    Schema.isWellFormed_iff.1 (each child hc).hyperparameters
  cases combinator with
  | choice =>
      obtain ⟨some, _, rfl⟩ := derive_choice_iff.1 derived
      have mapped (part : Operator → Schema) : children.map part ≠ [] := mt List.map_eq_nil_iff.1 some
      refine ⟨?_, ?_, ?_⟩ <;> refine Schema.isWellFormed_iff.2 ?_
      · exact Schema.sound_unionOf (mapped inputOf) (List.forall_mem_map.2 inputs)
      · exact Schema.sound_unionOf (mapped outputOf) (List.forall_mem_map.2 outputs)
      · rw [map_selectionOf]
        exact Schema.sound_selections some hyperparameters
  | sequential =>
      have settable := hyperparameters_of_derive derived (by decide)
      cases children with
      | nil => cases derived
      | cons first rest =>
          obtain ⟨_, _, e⟩ := Except.bind_eq_ok.1 derived
          cases e
          refine ⟨?_, ?_, ?_⟩ <;> refine Schema.isWellFormed_iff.2 ?_
          · exact inputs first List.mem_cons_self
          · exact outputs _ List.getLastD_mem_cons
          · exact Schema.sound_closedKeyedObject hyperparameters
  | parallel =>
      cases children with
      | nil => cases derived
      | cons first rest =>
          cases derived
          refine ⟨?_, ?_, ?_⟩ <;> refine Schema.isWellFormed_iff.2 ?_
          · rw [deriveParallel, keyedObject_eq]
            exact Schema.sound_keyedObject true inputs
          · exact Schema.sound_closedKeyedObject outputs
          · exact Schema.sound_closedKeyedObject hyperparameters

/-! ## 3. Every node -/

namespace Operator

mutual

/-- The operator and every operator inside it. -/
def nodes : Operator → List Operator
  | .leaf name handle signature => [.leaf name handle signature]
  | .composite name combinator children signature =>
    .composite name combinator children signature :: nodesBelow children

def nodesBelow : List Operator → List Operator
  | [] => []
  | child :: rest => child.nodes ++ nodesBelow rest

end

theorem mem_nodesBelow {node : Operator} :
    node ∈ nodesBelow children ↔ ∃ child ∈ children, node ∈ child.nodes := by
  induction children with
  | nil => simp [nodesBelow]
  | cons first rest ih => simp [nodesBelow, ih]

/-- **What is inside an operator is made in the same ways.** -/
theorem MadeFrom.of_mem_nodes {kind : Operator → Prop} (h : op.MadeFrom kind) :
    ∀ node ∈ op.nodes, node.MadeFrom kind := by
  refine MadeFrom.induction (motive := fun op => op.MadeFrom kind → ∀ node ∈ op.nodes,
    node.MadeFrom kind) (fun op isLeaf _ made node hn => ?_)
    (fun name combinator children signature combination ih made node hn => ?_) op h h
  · cases op with
    | leaf name handle signature => exact List.mem_singleton.1 hn ▸ made
    | composite _ _ _ _ => cases isLeaf
  · rcases List.mem_cons.1 hn with rfl | hn
    · exact made
    · obtain ⟨child, hc, hn⟩ := mem_nodesBelow.1 hn
      exact ih child hc (combination.made child hc) node hn

theorem MadeFrom.wellFormed (h : op.MadeFrom IsBuiltLeaf) : op.signature.WellFormed := by
  refine MadeFrom.induction (fun op _ built => ?_)
    (fun _ _ _ _ combination ih => Combinator.wellFormed_of_derive combination.derived ih) op h
  obtain ⟨parts, leaf, name, built, rfl⟩ := built
  rw [signature_rename]
  exact (LeafParts.build_eq_ok built).2

theorem MadeFrom.rederive {kind : Operator → Prop} (h : op.MadeFrom kind) :
    op.rederive = .ok op.signature := by
  cases op with
  | leaf name handle signature => rfl
  | composite name combinator children signature => exact h.isCombination.derived

/-- **Every node of an operator that has been obtained has a well-formed signature, which is exactly
    the one that is derived from its children again**, and no compiler calls the hyperparameters of
    the operator malformed. -/
theorem Obtained.keepsSignatures (h : op.Obtained) :
    (∀ node ∈ op.nodes, node.signature.WellFormed ∧ node.rederive = .ok node.signature) ∧
      ∀ (compiler : Compiler) (e : Malformed),
        (compiler.compile op.name op.signature.hyperparameters).1 ≠ .error (.malformed e) := by
  have made := h.madeFrom
  refine ⟨fun node hn => ?_, fun compiler e failed => ?_⟩
  · have made := made.of_mem_nodes node hn
    exact ⟨made.wellFormed, made.rederive⟩
  · exact faultsUnbounded_compile compiler op.name made.wellFormed.hyperparameters _ failed

theorem obtained_plainLeaf (name : String) (ne : name ≠ "") : (plainLeaf name).Obtained := by
  have built : LeafParts.build { name, hyperparameters := .any } = .ok (plainLeaf name) := by
    rw [LeafParts.build, if_neg ne]
    rfl
  exact .built built

/-- A choice with a name of its own, reconstructed from a registry of leaves and put next to another
    leaf. -/
theorem Obtained.keepsSignatures_models : ∃ models op,
    threeLeaves.reconstruct (.composite .choice (some "models") [.leaf "KNN", .leaf "LR"]) =
        .ok models ∧
      models.orElse (plainLeaf "Scale") = .ok op ∧ op.Obtained ∧ models ∈ op.nodes ∧
      (∀ node ∈ op.nodes, node.signature.WellFormed ∧ node.rederive = .ok node.signature) ∧
      ∀ (compiler : Compiler) (e : Malformed),
        (compiler.compile op.name op.signature.hyperparameters).1 ≠ .error (.malformed e) := by
  obtain ⟨inner, combined, any⟩ :=
    orElse_of_any (plainLeaf "KNN") (plainLeaf "LR") rfl rfl rfl rfl
  obtain ⟨outer, op, _⟩ := orElse_of_any
    (.composite "models" .choice [plainLeaf "KNN", plainLeaf "LR"] inner) (plainLeaf "Scale")
    any rfl (by simp [Combinator.spliced, Combinator.defaultName]) rfl
  have held (name : String) (part : Operator) (h : threeLeaves.get name = .ok part) :
      part.Obtained := by
    have entry := Registry.mem_of_get h
    simp only [threeLeaves, List.mem_cons, List.not_mem_nil, or_false, Prod.mk.injEq] at entry
    rcases entry with ⟨-, rfl⟩ | ⟨-, rfl⟩ | ⟨-, rfl⟩ <;>
      exact obtained_plainLeaf _ (by decide)
  have models : threeLeaves.reconstruct
      (.composite .choice (some "models") [.leaf "KNN", .leaf "LR"]) =
        .ok (.composite "models" .choice [plainLeaf "KNN", plainLeaf "LR"] inner) := by
    change (Combinator.choice.combine [plainLeaf "KNN", plainLeaf "LR"] >>= _) = _
    rw [show Combinator.choice.combine [plainLeaf "KNN", plainLeaf "LR"] = _ from combined]
    rfl
  have obtained := (Obtained.reconstructed held models).orElse
    (obtained_plainLeaf "Scale" (by decide)) op
  refine ⟨_, _, models, op, obtained, ?_, obtained.keepsSignatures⟩
  simp [nodes, nodesBelow]

end Operator

end TypedPipeline
