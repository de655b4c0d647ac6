import Flay.ControlPlane.Objects
import Flay.Lib.Recompute
import Flay.Program.Syntax
import Mathlib.Data.List.Dedup

/-! The annotated nodes of a program, and the maps `Z3SolverReachabilityMap` and
`Z3SolverSubstitutionMap`, which keep what Z3 makes of each annotation under the assignments of the
control plane. -/

namespace Flay

open Container

/-- Nodes with the expressions that annotate them, and by symbol the nodes to look at again. -/
structure Annotations {κ : Type} [DecidableEq κ] (type : κ → Ty) where
  expressions : OrderedMap fun k => Expr (type k)
  symbolMap : SymbolicVariable → List κ
  collected : ∀ k e, expressions.find k = some e → ∀ x ∈ e.symbols, k ∈ symbolMap x
  known : ∀ x, ∀ k ∈ symbolMap x, k ∈ expressions.keys

abbrev ReachabilityAnnotations : Type := Annotations fun _ : Node => .boolean

abbrev SubstitutionAnnotations : Type := Annotations ExpressionNode.type

variable {κ : Type} [DecidableEq κ] {type : κ → Ty}

/-- Each node under the symbols of its expression. -/
def Annotations.create (expressions : OrderedMap fun k => Expr (type k)) : Annotations type where
  expressions := expressions
  symbolMap x := (expressions.entries.filter fun s => decide (x ∈ s.2.symbols)).map Sigma.fst
  collected := by
    intro k e found x hx
    refine List.mem_map.mpr ⟨⟨k, e⟩, List.mem_filter.mpr ⟨?_, decide_eq_true hx⟩, rfl⟩
    exact OrderedMap.find_eq_some.mp found
  known := by
    intro x k hk
    obtain ⟨s, hs, rfl⟩ := List.mem_map.mp hk
    exact List.mem_map.mpr ⟨s, (List.mem_filter.mp hs).1, rfl⟩

/-- The nodes that depend on one of the symbols. -/
def targetNodes (symbolMap : SymbolicVariable → List κ) (symbolSet : SymbolSet) : List κ :=
  (symbolSet.flatMap symbolMap).dedup

theorem mem_targetNodes {symbolMap : SymbolicVariable → List κ} {symbolSet : SymbolSet} {k : κ} :
    k ∈ targetNodes symbolMap symbolSet ↔ ∃ x ∈ symbolSet, k ∈ symbolMap x := by
  rw [targetNodes, List.mem_dedup, List.mem_flatMap]

variable [Z3]

/-- `Z3ReachabilityExpression` and `Z3SubstitutionExpression`: the annotation as Z3 keeps it, and
the literal that it is known to be. -/
structure Z3Expression (t : Ty) where
  original : Z3.Term t
  verdict : Option t.Val

/-- The literal that the assignments make of a term. -/
def Z3ControlPlaneAssignmentSet.verdict (assignmentSet : Z3ControlPlaneAssignmentSet) {t : Ty}
    (original : Z3.Term t) : Option t.Val :=
  Z3.literal? (Z3.simplify (assignmentSet.substitute original))

section ComputeNode

variable (assignmentSet : Z3ControlPlaneAssignmentSet)

/-- The expression with its new substitution, and whether that is a change. -/
def computeNodeSubstitution {t : Ty} (expression : Z3Expression t) : Z3Expression t × Bool :=
  let newExpr := Z3.simplify (assignmentSet.substitute expression.original)
  match Z3.literal? newExpr, expression.verdict with
  | some newSubstitution, none => ({ expression with verdict := some newSubstitution }, true)
  | some newSubstitution, some previousSubstitution =>
    ({ expression with verdict := some newSubstitution },
      !decide (previousSubstitution = newSubstitution))
  | none, some _ => ({ expression with verdict := none }, true)
  | none, none => (expression, false)

/-- The condition of a node with its new reachability, and whether that is a change. -/
def computeNodeReachability (expression : Z3Expression .boolean) : Z3Expression .boolean × Bool :=
  let newExpr := Z3.simplify (assignmentSet.substitute expression.original)
  match Z3.literal? newExpr with
  | some true =>
    ({ expression with verdict := some true },
      !expression.verdict.isSome || !expression.verdict.getD false)
  | some false =>
    ({ expression with verdict := some false },
      !expression.verdict.isSome || expression.verdict.getD false)
  | none =>
    if expression.verdict.isSome then ({ expression with verdict := none }, true)
    else (expression, false)

/-- A node is computed as an expression of type boolean is. -/
theorem computeNodeReachability_eq (expression : Z3Expression .boolean) :
    computeNodeReachability assignmentSet expression =
      computeNodeSubstitution assignmentSet expression := by
  obtain ⟨original, verdict⟩ := expression
  simp only [computeNodeReachability, computeNodeSubstitution]
  cases Z3.literal? (Z3.simplify (assignmentSet.substitute original)) with
  | none => cases verdict <;> rfl
  | some value =>
    cases verdict with
    | none => cases value <;> rfl
    | some old => cases value <;> cases old <;> rfl

/-- The branches all store the literal that the assignments make of the term. -/
theorem computeNodeSubstitution_fst {t : Ty} (expression : Z3Expression t) :
    (computeNodeSubstitution assignmentSet expression).1 =
      { expression with verdict := assignmentSet.verdict expression.original } := by
  obtain ⟨original, verdict⟩ := expression
  simp only [computeNodeSubstitution, Z3ControlPlaneAssignmentSet.verdict]
  cases Z3.literal? (Z3.simplify (assignmentSet.substitute original)) <;> cases verdict <;> rfl

/-- The branches tell a change exactly when the literal is another one. -/
theorem computeNodeSubstitution_snd {t : Ty} (expression : Z3Expression t) :
    (computeNodeSubstitution assignmentSet expression).2 = true ↔
      assignmentSet.verdict expression.original ≠ expression.verdict := by
  obtain ⟨original, verdict⟩ := expression
  simp only [computeNodeSubstitution, Z3ControlPlaneAssignmentSet.verdict]
  cases Z3.literal? (Z3.simplify (assignmentSet.substitute original)) with
  | none => cases verdict <;> simp
  | some value =>
    cases verdict with
    | none => simp
    | some old =>
      change (!decide (old = value)) = true ↔ some value ≠ some old
      rw [Bool.not_eq_true', decide_eq_false_iff_not, ne_eq, Option.some.injEq, eq_comm]

end ComputeNode

/-- `computeNodeSubstitution` at the expressions of a map, and `computeNodeReachability` where all of
them are of type boolean. -/
def computeNode (type : κ → Ty) (assignmentSet : Z3ControlPlaneAssignmentSet) :
    Recompute fun k => Z3Expression (type k) where
  compute _ e := (computeNodeSubstitution assignmentSet e).1
  changes _ e := (computeNodeSubstitution assignmentSet e).2
  idempotent _ e := by simp only [computeNodeSubstitution_fst]
  settled _ e := by
    rw [← Bool.not_eq_true, computeNodeSubstitution_snd]
    simp only [computeNodeSubstitution_fst, ne_eq, not_true_eq_false, not_false_eq_true]

omit [DecidableEq κ] in
theorem compute_computeNode (assignmentSet : Z3ControlPlaneAssignmentSet) (k : κ)
    (e : Z3Expression (type k)) : (computeNode type assignmentSet).compute k e =
      { e with verdict := assignmentSet.verdict e.original } :=
  computeNodeSubstitution_fst assignmentSet e

omit [DecidableEq κ] in
theorem changes_computeNode (assignmentSet : Z3ControlPlaneAssignmentSet) (k : κ)
    (e : Z3Expression (type k)) : (computeNode type assignmentSet).changes k e = true ↔
      assignmentSet.verdict e.original ≠ e.verdict :=
  computeNodeSubstitution_snd assignmentSet e

structure Z3SolverMap {κ : Type} (type : κ → Ty) where
  nodes : OrderedMap fun k => Z3Expression (type k)
  symbolMap : SymbolicVariable → List κ

namespace Z3SolverMap

/-- The constructor, from the annotations of the nodes. -/
def create (annotations : Annotations type) : Z3SolverMap type where
  nodes := annotations.expressions.mapValues fun _ e => ⟨Z3.simplify (Z3.set e), none⟩
  symbolMap := annotations.symbolMap

/-- The recomputation of the nodes, with whether a verdict has changed. -/
def recomputeNodes (m : Z3SolverMap type) (targets : List κ)
    (assignmentSet : Z3ControlPlaneAssignmentSet) : Option (Z3SolverMap type × Bool) :=
  ((computeNode type assignmentSet).run targets m.nodes).map fun result =>
    ({ m with nodes := result.1 }, result.2)

def recomputeAll (m : Z3SolverMap type) (assignmentSet : Z3ControlPlaneAssignmentSet) :
    Option (Z3SolverMap type × Bool) :=
  m.recomputeNodes m.nodes.keys assignmentSet

def recompute (m : Z3SolverMap type) (symbolSet : SymbolSet)
    (assignmentSet : Z3ControlPlaneAssignmentSet) : Option (Z3SolverMap type × Bool) :=
  m.recomputeNodes (targetNodes m.symbolMap symbolSet) assignmentSet

/-- The verdict of a node, if it has one. -/
def verdict (m : Z3SolverMap type) (k : κ) : Option (type k).Val :=
  (m.nodes.find k).bind Z3Expression.verdict

/-- The map keeps the annotations. -/
structure Tracks (m : Z3SolverMap type) (annotations : Annotations type) : Prop where
  keys : m.nodes.keys = annotations.expressions.keys
  original : ∀ k e, m.nodes.find k = some e →
    ∃ expression, annotations.expressions.find k = some expression ∧
      e.original = Z3.simplify (Z3.set expression)
  symbolMap : m.symbolMap = annotations.symbolMap

/-- Every verdict is the one under the assignments. -/
def UpToDate (m : Z3SolverMap type) (assignmentSet : Z3ControlPlaneAssignmentSet) : Prop :=
  ∀ k, (computeNode type assignmentSet).UpToDate m.nodes k

/-- Some node that depends on one of the symbols has a verdict other than the literal that the
assignments make of its expression. -/
def Outdated (m : Z3SolverMap type) (symbolSet : SymbolSet)
    (assignmentSet : Z3ControlPlaneAssignmentSet) : Prop :=
  ∃ k ∈ targetNodes m.symbolMap symbolSet, ∃ e, m.nodes.find k = some e ∧
    assignmentSet.verdict e.original ≠ e.verdict

/-- Every verdict is the literal that the assignments make of the expression of its node. -/
def Exact (m : Z3SolverMap type) (expressions : OrderedMap fun k => Expr (type k))
    (assignmentSet : Z3ControlPlaneAssignmentSet) : Prop :=
  ∀ k, m.verdict k =
    (expressions.find k).bind fun e => assignmentSet.verdict (Z3.simplify (Z3.set e))

variable {m m' : Z3SolverMap type} {annotations : Annotations type}
  {assignmentSet before after : Z3ControlPlaneAssignmentSet} {targets : List κ} {changed : Bool}

theorem tracks_create (annotations : Annotations type) : (create annotations).Tracks annotations := by
  refine ⟨OrderedMap.keys_mapValues _ _, fun _ e found => ?_, rfl⟩
  rw [create, OrderedMap.find_mapValues, Option.map_eq_some_iff] at found
  obtain ⟨expression, found, rfl⟩ := found
  exact ⟨expression, found, rfl⟩

/-- What a recomputation does to the map. -/
theorem exists_recomputeNodes (tracks : m.Tracks annotations)
    (known : ∀ k ∈ targets, k ∈ annotations.expressions.keys) :
    ∃ m' changed, m.recomputeNodes targets assignmentSet = some (m', changed) ∧
      m'.Tracks annotations ∧
      (computeNode type assignmentSet).Recomputed targets m.nodes m'.nodes changed := by
  have present : ∀ k ∈ targets, k ∈ m.nodes.keys := by
    intro k hk
    rw [tracks.keys]
    exact known k hk
  obtain ⟨nodes, changed, run, recomputed⟩ :=
    Recompute.exists_run (r := computeNode type assignmentSet) present
  refine ⟨{ m with nodes := nodes }, changed, by simp [recomputeNodes, run], ?_, recomputed⟩
  refine ⟨recomputed.keys.trans tracks.keys, fun k e found => ?_, tracks.symbolMap⟩
  rw [recomputed.find] at found
  split at found
  · obtain ⟨d, old, rfl⟩ := Option.map_eq_some_iff.mp found
    rw [compute_computeNode]
    exact tracks.original k d old
  · exact tracks.original k e found

theorem exists_recomputeAll (tracks : m.Tracks annotations)
    (assignmentSet : Z3ControlPlaneAssignmentSet) :
    ∃ m' changed, m.recomputeAll assignmentSet = some (m', changed) ∧ m'.Tracks annotations ∧
      (computeNode type assignmentSet).Recomputed m.nodes.keys m.nodes m'.nodes changed :=
  exists_recomputeNodes tracks fun _ hk => tracks.keys ▸ hk

theorem exists_recompute (tracks : m.Tracks annotations) (symbolSet : SymbolSet)
    (assignmentSet : Z3ControlPlaneAssignmentSet) :
    ∃ m' changed, m.recompute symbolSet assignmentSet = some (m', changed) ∧
      m'.Tracks annotations ∧
      (computeNode type assignmentSet).Recomputed (targetNodes annotations.symbolMap symbolSet)
        m.nodes m'.nodes changed := by
  have known : ∀ k ∈ targetNodes annotations.symbolMap symbolSet,
      k ∈ annotations.expressions.keys := by
    intro k hk
    obtain ⟨x, -, hk⟩ := mem_targetNodes.mp hk
    exact annotations.known x k hk
  rw [recompute, tracks.symbolMap]
  exact exists_recomputeNodes tracks known

/-- A key that is not in the map has no verdict to keep up. -/
theorem upToDate_of_not_mem {k : κ} (h : k ∉ m.nodes.keys) :
    (computeNode type assignmentSet).UpToDate m.nodes k := by
  intro e found
  exact absurd (OrderedMap.mem_keys_of_find found) h

theorem verdict_of_recomputed (rest : ∀ k ∉ targets,
      (computeNode type assignmentSet).UpToDate m.nodes k)
    (recomputed : (computeNode type assignmentSet).Recomputed targets m.nodes m'.nodes changed)
    (k : κ) : m'.verdict k =
      (m.nodes.find k).bind fun e => assignmentSet.verdict e.original := by
  rw [verdict, recomputed.find_of_upToDate rest]
  cases m.nodes.find k <;> simp [compute_computeNode]

theorem UpToDate.verdict (upToDate : m.UpToDate assignmentSet) (k : κ) :
    m.verdict k = (m.nodes.find k).bind fun e => assignmentSet.verdict e.original := by
  rw [Z3SolverMap.verdict]
  cases found : m.nodes.find k with
  | none => rfl
  | some e =>
    have same : (computeNode type assignmentSet).compute k e = e := upToDate k e found
    rw [compute_computeNode] at same
    exact (congrArg Z3Expression.verdict same).symm

/-- A recomputation that succeeds tells a change exactly when some verdict that it comes to is
another one. -/
theorem changed_iff_outdated {symbolSet : SymbolSet}
    (h : m.recompute symbolSet assignmentSet = some (m', changed)) :
    changed = true ↔ m.Outdated symbolSet assignmentSet := by
  obtain ⟨result, ran, same⟩ := Option.map_eq_some_iff.mp h
  cases same
  rw [(Recompute.recomputed_of_run ran).changed, Outdated]
  simp only [changes_computeNode]

theorem Tracks.exact (tracks : m.Tracks annotations) (upToDate : m.UpToDate assignmentSet) :
    m.Exact annotations.expressions assignmentSet := by
  intro k
  rw [upToDate.verdict]
  cases found : m.nodes.find k with
  | none =>
    have absent : annotations.expressions.find k = none := by
      rw [OrderedMap.find_eq_none, ← tracks.keys]
      exact OrderedMap.find_eq_none.mp found
    rw [absent]
    rfl
  | some e =>
    obtain ⟨expression, annotated, original⟩ := tracks.original k e found
    rw [annotated, Option.bind_some, Option.bind_some, original]

/-- No change is told exactly when every verdict is as it was. -/
theorem unchanged_iff_of_recomputed (rest : ∀ k ∉ targets,
      (computeNode type assignmentSet).UpToDate m.nodes k)
    (recomputed : (computeNode type assignmentSet).Recomputed targets m.nodes m'.nodes changed) :
    changed = false ↔ ∀ k, m'.verdict k = m.verdict k := by
  have told := recomputed.changed_of_upToDate rest
  constructor
  · intro unchanged k
    rw [verdict_of_recomputed rest recomputed, verdict]
    cases found : m.nodes.find k with
    | none => rfl
    | some e =>
      by_contra different
      have changes : changed = true := told.mpr ⟨k, e, found, (changes_computeNode assignmentSet k e).mpr different⟩
      rw [unchanged] at changes
      cases changes
  · intro same
    by_contra changes
    obtain ⟨k, e, found, different⟩ := told.mp (by simpa using changes)
    have verdicts := same k
    rw [verdict_of_recomputed rest recomputed, verdict, found] at verdicts
    exact (changes_computeNode assignmentSet k e).mp different verdicts

end Z3SolverMap

section Covered

/-- Every node whose annotation mentions a symbol that the two assignments treat differently
depends on a symbol of the set. -/
def Annotations.Covered (annotations : Annotations type) (symbolSet : SymbolSet)
    (before after : Z3ControlPlaneAssignmentSet) : Prop :=
  ∀ k e, annotations.expressions.find k = some e →
    (∃ x ∈ e.symbols, before.find x ≠ after.find x) →
    k ∈ targetNodes annotations.symbolMap symbolSet

variable {m m' : Z3SolverMap type} {annotations : Annotations type}
  {before after : Z3ControlPlaneAssignmentSet} {symbolSet : SymbolSet} {changed : Bool}

/-- The assignments of other symbols do not count for a verdict. -/
theorem verdict_congr [Z3.Local] {t : Ty} (e : Expr t)
    (h : ∀ x ∈ e.symbols, before.find x = after.find x) :
    before.verdict (Z3.simplify (Z3.set e)) = after.verdict (Z3.simplify (Z3.set e)) := by
  rw [Z3ControlPlaneAssignmentSet.verdict, Z3ControlPlaneAssignmentSet.verdict,
    Z3ControlPlaneAssignmentSet.substitute, Z3ControlPlaneAssignmentSet.substitute,
    Z3.Local.simplify_substitute_congr e before.entries after.entries h]

/-- The nodes that a covered change leaves out are up to date after it. -/
theorem upToDate_of_covered [Z3.Local] (tracks : m.Tracks annotations)
    (upToDate : m.UpToDate before) (covered : annotations.Covered symbolSet before after) :
    ∀ k ∉ targetNodes annotations.symbolMap symbolSet,
      (computeNode type after).UpToDate m.nodes k := by
  intro k out e found
  obtain ⟨expression, annotated, original⟩ := tracks.original k e found
  have same : ∀ x ∈ expression.symbols, before.find x = after.find x := by
    intro x hx
    by_contra different
    exact out (covered k expression annotated ⟨x, hx, different⟩)
  have old : (computeNode type before).compute k e = e := upToDate k e found
  have verdicts : before.verdict e.original = after.verdict e.original := by
    rw [original]
    exact verdict_congr expression same
  have computed : (computeNode type after).compute k e = (computeNode type before).compute k e := by
    rw [compute_computeNode, compute_computeNode, verdicts]
  exact computed.trans old

end Covered

end Flay
