import Flay.Interpreter.NodeMap
import Flay.Specialization.SolverMap

/-! Runs of the operations on annotation maps, over all the maps that clones of the states have:
the symbol maps that a run leaves name every node for every symbol of its annotation. -/

namespace Flay

open Container

/-- The annotation maps of the states by handles, and the objects that they share. -/
structure AnnotationHeap where
  maps : Nat → NodeAnnotationMap
  objects : ReachabilityExpressions

/-- An operation on the map of a state. Cloning a state copies its map. -/
inductive AnnotationOperation
  | clone (source target : Nat)
  | initializeReachabilityMapping (handle : Nat) (node : Node) (cond : Expr .boolean)
  | initializeExpressionMapping (handle : Nat) (expression : ExpressionNode)
      (value : Expr expression.type) (cond : Expr .boolean)
  | mergeAnnotationMapping (handle other : Nat)

namespace AnnotationOperation

def run (s : AnnotationHeap) : AnnotationOperation → AnnotationHeap
  | .clone source target => { s with maps := Function.update s.maps target (s.maps source) }
  | .initializeReachabilityMapping handle node cond =>
    let mapped := (s.maps handle).initializeReachabilityMapping s.objects node cond
    ⟨Function.update s.maps handle mapped.1, mapped.2⟩
  | .initializeExpressionMapping handle expression value cond =>
    { s with
      maps := Function.update s.maps handle
        ((s.maps handle).initializeExpressionMapping expression value cond) }
  | .mergeAnnotationMapping handle other =>
    { s with
      maps := Function.update s.maps handle
        ((s.maps handle).mergeAnnotationMapping (s.maps other)) }

def runAll : AnnotationHeap → List AnnotationOperation → AnnotationHeap :=
  List.foldl run

/-- What the map of the handle has reaches the map of the state that is left in the end: by merges,
also through clones. -/
def Reaches : List AnnotationOperation → Nat → Prop
  | [], handle => handle = 0
  | .clone source target :: l, handle =>
    handle ≠ target ∧ Reaches l handle ∨ handle = source ∧ Reaches l target
  | .mergeAnnotationMapping into other :: l, handle =>
    Reaches l handle ∨ handle = other ∧ Reaches l into
  | _ :: l, handle => Reaches l handle

/-- Every clone is merged back: what is mapped in the map of a state reaches the one left. -/
def MergedBack : List AnnotationOperation → Prop
  | [] => True
  | .initializeReachabilityMapping handle _ _ :: l
  | .initializeExpressionMapping handle _ _ _ :: l => Reaches l handle ∧ MergedBack l
  | _ :: l => MergedBack l

end AnnotationOperation

/-- The maps before anything is mapped. -/
def AnnotationHeap.empty : AnnotationHeap := ⟨fun _ => NodeAnnotationMap.empty, []⟩

section Maps

variable {m m' : NodeAnnotationMap} {x : SymbolicVariable}

/-- The symbol maps name nodes that are mapped, and every expression under the symbols of its
value. -/
structure NodeAnnotationMap.Indexed (m : NodeAnnotationMap) : Prop where
  node : ∀ x, ∀ node ∈ m.reachabilitySymbolMap x, node ∈ m.reachabilityMap.keys
  expression : ∀ x, ∀ e ∈ m.expressionSymbolMap x, e ∈ m.substitutionMap.keys
  value : ∀ e s, m.substitutionMap.find e = some s →
    ∀ x ∈ s.originalExpression.symbols, e ∈ m.expressionSymbolMap x

theorem SymbolMap.mem_add {κ : Type} {m : SymbolMap κ} {symbols : List SymbolicVariable}
    {node k : κ} : k ∈ m.add symbols node x ↔ k ∈ m x ∨ x ∈ symbols ∧ k = node := by
  unfold SymbolMap.add
  split <;> simp [*]

theorem SymbolMap.mem_insert {κ : Type} {m m' : SymbolMap κ} {k : κ} :
    k ∈ m.insert m' x ↔ k ∈ m x ∨ k ∈ m' x :=
  List.mem_append

namespace NodeAnnotationMap

theorem Indexed.empty : NodeAnnotationMap.empty.Indexed where
  node _ _ mem := absurd mem List.not_mem_nil
  expression _ _ mem := absurd mem List.not_mem_nil
  value _ _ found := by cases found

/-- What `initializeReachabilityMapping` does: the node is mapped to its old object or to a new one,
the other nodes are mapped as before, and the node is under the symbols of the condition. -/
theorem initializeReachabilityMapping_cases (m : NodeAnnotationMap)
    (objects : ReachabilityExpressions) (node : Node) (cond : Expr .boolean) :
    (∃ address, m.reachabilityMap.find node = some address ∧
      m.initializeReachabilityMapping objects node cond =
        ({ m with reachabilitySymbolMap := m.reachabilitySymbolMap.add cond.symbols node },
          objects.modify address fun old => .lOr old cond)) ∨
    m.reachabilityMap.find node = none ∧
      m.initializeReachabilityMapping objects node cond =
        ({ m with
            reachabilitySymbolMap := m.reachabilitySymbolMap.add cond.symbols node
            reachabilityMap := m.reachabilityMap.emplace node objects.length },
          objects ++ [cond]) := by
  cases found : m.reachabilityMap.find node with
  | some address => exact .inl ⟨address, rfl, by simp [initializeReachabilityMapping, found]⟩
  | none => exact .inr ⟨rfl, by simp [initializeReachabilityMapping, found]⟩

theorem Indexed.initializeReachabilityMapping (h : m.Indexed) (objects : ReachabilityExpressions)
    (node : Node) (cond : Expr .boolean) :
    (m.initializeReachabilityMapping objects node cond).1.Indexed := by
  obtain ⟨address, found, mapped⟩ | ⟨-, mapped⟩ :=
    m.initializeReachabilityMapping_cases objects node cond
  · rw [mapped]
    refine ⟨fun x k mem => ?_, h.expression, h.value⟩
    obtain mem | ⟨-, rfl⟩ := SymbolMap.mem_add.mp mem
    · exact h.node x k mem
    · exact OrderedMap.mem_keys_of_find found
  · rw [mapped]
    refine ⟨fun x k mem => OrderedMap.mem_keys_emplace.mpr ?_, h.expression, h.value⟩
    obtain mem | ⟨-, same⟩ := SymbolMap.mem_add.mp mem
    · exact .inl (h.node x k mem)
    · exact .inr same

theorem Indexed.initializeExpressionMapping (h : m.Indexed) (expression : ExpressionNode)
    (value : Expr expression.type) (cond : Expr .boolean) :
    (m.initializeExpressionMapping expression value cond).Indexed := by
  refine ⟨h.node, fun x e mem => OrderedMap.mem_keys_emplace.mpr ?_, fun e s found x mem => ?_⟩
  · obtain mem | ⟨-, same⟩ := SymbolMap.mem_add.mp mem
    · exact .inl (h.expression x e mem)
    · exact .inr same
  · refine SymbolMap.mem_add.mpr ?_
    by_cases same : e = expression
    · subst same
      cases old : m.substitutionMap.find e with
      | some s' =>
        have kept := (OrderedMap.find_emplace_self m.substitutionMap e ⟨cond, value⟩).symm.trans found
        rw [old, Option.getD_some, Option.some.injEq] at kept
        subst kept
        exact .inl (h.value e s' old x mem)
      | none =>
        have new := (OrderedMap.find_emplace_self m.substitutionMap e ⟨cond, value⟩).symm.trans found
        rw [old, Option.getD_none, Option.some.injEq] at new
        subst new
        exact .inr ⟨mem, rfl⟩
    · have old := (OrderedMap.find_emplace_ne m.substitutionMap ⟨cond, value⟩ same).symm.trans found
      exact .inl (h.value e s old x mem)

theorem Indexed.mergeAnnotationMapping (h : m.Indexed) (h' : m'.Indexed) :
    (m.mergeAnnotationMapping m').Indexed := by
  refine ⟨fun x k mem => OrderedMap.mem_keys_insertAll.mpr ?_,
    fun x e mem => OrderedMap.mem_keys_insertAll.mpr ?_, fun e s found x mem => ?_⟩
  · exact (SymbolMap.mem_insert.mp mem).imp (h.node x k) (h'.node x k)
  · exact (SymbolMap.mem_insert.mp mem).imp (h.expression x e) (h'.expression x e)
  · refine SymbolMap.mem_insert.mpr ?_
    have looked := (OrderedMap.find_insertAll m.substitutionMap m'.substitutionMap.entries e).symm.trans
      found
    cases old : m.substitutionMap.find e with
    | some s' =>
      rw [old, Option.some_or, Option.some.injEq] at looked
      subst looked
      exact .inl (h.value e s' old x mem)
    | none =>
      rw [old, Option.none_or] at looked
      exact .inr (h'.value e s looked x mem)

end NodeAnnotationMap

end Maps

namespace AnnotationHeap

variable {s : AnnotationHeap} {rest : List AnnotationOperation}

/-- The symbol leads to the node in some map that reaches the one left in the end. -/
def Leads (s : AnnotationHeap) (rest : List AnnotationOperation) (x : SymbolicVariable)
    (node : Node) : Prop :=
  ∃ handle, node ∈ (s.maps handle).reachabilitySymbolMap x ∧
    AnnotationOperation.Reaches rest handle

/-- The objects that a map refers to exist and belong to its nodes. -/
def Owned (count : Nat) (owner : Nat → Node) (m : NodeAnnotationMap) : Prop :=
  ∀ node address, m.reachabilityMap.find node = some address →
    address < count ∧ owner address = node

/-- The state of a run with the operations `rest` to come: each object belongs to one node, and the
symbols of its condition lead there. -/
structure Valid (s : AnnotationHeap) (rest : List AnnotationOperation) (owner : Nat → Node) :
    Prop where
  indexed : ∀ handle, (s.maps handle).Indexed
  owned : ∀ handle, Owned s.objects.length owner (s.maps handle)
  symbols : ∀ address cond, s.objects[address]? = some cond → ∀ x ∈ cond.symbols,
    s.Leads rest x (owner address)

theorem Valid.empty (rest : List AnnotationOperation) : empty.Valid rest fun _ => 0 where
  indexed _ := .empty
  owned _ _ _ found := by cases found
  symbols _ _ found := by cases found

/-- A property of all maps that one of them keeps when it is replaced. -/
theorem forall_update {P : NodeAnnotationMap → Prop} {maps : Nat → NodeAnnotationMap}
    (h : ∀ handle, P (maps handle)) {target : Nat} {m : NodeAnnotationMap} (new : P m)
    (handle : Nat) : P (Function.update maps target m handle) := by
  by_cases same : handle = target
  · subst same
    rw [Function.update_self]
    exact new
  · rw [Function.update_of_ne same]
    exact h handle

/-- A map that grows leads to what it led to. -/
theorem Leads.update {x : SymbolicVariable} {k : Node} {target : Nat} {m : NodeAnnotationMap}
    {objects : ReachabilityExpressions} (h : s.Leads rest x k)
    (grown : k ∈ (s.maps target).reachabilitySymbolMap x → k ∈ m.reachabilitySymbolMap x) :
    Leads ⟨Function.update s.maps target m, objects⟩ rest x k := by
  obtain ⟨handle, mem, reaches⟩ := h
  refine ⟨handle, ?_, reaches⟩
  by_cases same : handle = target
  · subst same
    simpa only [Function.update_self] using grown mem
  · simpa only [Function.update_of_ne same] using mem

theorem Leads.of_update {x : SymbolicVariable} {k : Node} {target : Nat} {m : NodeAnnotationMap}
    {objects : ReachabilityExpressions} (mem : k ∈ m.reachabilitySymbolMap x)
    (reaches : AnnotationOperation.Reaches rest target) :
    Leads ⟨Function.update s.maps target m, objects⟩ rest x k := by
  refine ⟨target, ?_, reaches⟩
  simpa only [Function.update_self] using mem

variable {owner : Nat → Node}

theorem Valid.clone {source target : Nat} (h : s.Valid (.clone source target :: rest) owner) :
    Valid (AnnotationOperation.run s (.clone source target)) rest owner where
  indexed := forall_update h.indexed (h.indexed source)
  owned := forall_update h.owned (h.owned source)
  symbols := by
    intro address cond found x mem
    obtain ⟨handle, led, ⟨other, reaches⟩ | ⟨rfl, reaches⟩⟩ := h.symbols address cond found x mem
    · refine ⟨handle, ?_, reaches⟩
      simpa only [AnnotationOperation.run, Function.update_of_ne other] using led
    · exact .of_update led reaches

theorem Valid.mergeAnnotationMapping {handle other : Nat}
    (h : s.Valid (.mergeAnnotationMapping handle other :: rest) owner) :
    Valid (AnnotationOperation.run s (.mergeAnnotationMapping handle other)) rest owner where
  indexed := forall_update h.indexed ((h.indexed handle).mergeAnnotationMapping (h.indexed other))
  owned := by
    refine forall_update h.owned fun node address found => ?_
    have looked := (OrderedMap.find_insertAll (s.maps handle).reachabilityMap
      (s.maps other).reachabilityMap.entries node).symm.trans found
    rcases Option.or_eq_some_iff.mp looked with found | ⟨-, found⟩
    · exact h.owned handle node address found
    · exact h.owned other node address found
  symbols := by
    intro address cond found x mem
    obtain ⟨handle', led, reaches | ⟨rfl, reaches⟩⟩ := h.symbols address cond found x mem
    · exact Leads.update ⟨handle', led, reaches⟩ fun mem => SymbolMap.mem_insert.mpr (.inl mem)
    · exact .of_update (SymbolMap.mem_insert.mpr (.inr led)) reaches

theorem Valid.initializeExpressionMapping {handle : Nat} {expression : ExpressionNode}
    {value : Expr expression.type} {cond : Expr .boolean}
    (h : s.Valid (.initializeExpressionMapping handle expression value cond :: rest) owner) :
    Valid (AnnotationOperation.run s (.initializeExpressionMapping handle expression value cond))
      rest owner where
  indexed := forall_update h.indexed
    ((h.indexed handle).initializeExpressionMapping expression value cond)
  owned := forall_update h.owned (h.owned handle)
  symbols address cond found x mem := (h.symbols address cond found x mem).update id

theorem Valid.initializeReachabilityMapping {handle : Nat} {node : Node} {cond : Expr .boolean}
    (h : s.Valid (.initializeReachabilityMapping handle node cond :: rest) owner)
    (reaches : AnnotationOperation.Reaches rest handle) :
    ∃ owner', Valid (AnnotationOperation.run s (.initializeReachabilityMapping handle node cond))
      rest owner' := by
  have indexed := (h.indexed handle).initializeReachabilityMapping s.objects node cond
  obtain ⟨address, found, mapped⟩ | ⟨absent, mapped⟩ :=
    (s.maps handle).initializeReachabilityMapping_cases s.objects node cond
  · rw [mapped] at indexed
    have owns : owner address = node := (h.owned handle node address found).2
    refine ⟨owner, ?_⟩
    simp only [AnnotationOperation.run, mapped]
    refine ⟨forall_update h.indexed indexed, ?_, fun a e read x mem => ?_⟩
    · rw [List.length_modify]
      exact forall_update h.owned (h.owned handle)
    · rw [List.getElem?_modify, Option.map_eq_map, Option.map_eq_some_iff] at read
      obtain ⟨before, stored, rfl⟩ := read
      have old := h.symbols a before stored x
      split at mem
      · rename_i same
        subst same
        rcases List.mem_append.mp mem with mem | mem
        · exact (old mem).update fun led => SymbolMap.mem_add.mpr (.inl led)
        · exact .of_update (SymbolMap.mem_add.mpr (.inr ⟨mem, owns⟩)) reaches
      · exact (old mem).update fun led => SymbolMap.mem_add.mpr (.inl led)
  · rw [mapped] at indexed
    let owner' := Function.update owner s.objects.length node
    have kept : ∀ a < s.objects.length, owner' a = owner a :=
      fun a bound => Function.update_of_ne (by omega) _ _
    have owns : owner' s.objects.length = node := Function.update_self ..
    have grown : ∀ m, Owned s.objects.length owner m → Owned (s.objects.length + 1) owner' m := by
      intro m owned k a found
      obtain ⟨bound, owns⟩ := owned k a found
      exact ⟨by omega, (kept a bound).trans owns⟩
    refine ⟨owner', ?_⟩
    simp only [AnnotationOperation.run, mapped]
    refine ⟨forall_update h.indexed indexed, ?_, fun a e read x mem => ?_⟩
    · rw [List.length_append, List.length_singleton]
      refine forall_update (fun handle => grown _ (h.owned handle)) fun k a found => ?_
      by_cases same : k = node
      · subst same
        have new := (OrderedMap.find_emplace_self (s.maps handle).reachabilityMap k
          s.objects.length).symm.trans found
        rw [absent, Option.getD_none, Option.some.injEq] at new
        subst new
        exact ⟨by omega, owns⟩
      · refine grown _ (h.owned handle) k a ?_
        exact (OrderedMap.find_emplace_ne _ s.objects.length same).symm.trans found
    · by_cases bound : a < s.objects.length
      · rw [List.getElem?_append_left bound] at read
        rw [kept a bound]
        exact (h.symbols a e read x mem).update fun led => SymbolMap.mem_add.mpr (.inl led)
      · rw [List.getElem?_append_right (by omega), List.getElem?_singleton] at read
        split at read
        · rename_i last
          obtain rfl : a = s.objects.length := by omega
          cases read
          exact .of_update (SymbolMap.mem_add.mpr (.inr ⟨mem, owns⟩)) reaches
        · cases read

/-- A run in which every clone is merged back stays valid. -/
theorem Valid.runAll {l : List AnnotationOperation} (h : s.Valid l owner)
    (merged : AnnotationOperation.MergedBack l) :
    ∃ owner', (AnnotationOperation.runAll s l).Valid [] owner' := by
  induction l generalizing s owner with
  | nil => exact ⟨owner, h⟩
  | cons operation l ih =>
    cases operation with
    | clone source target => exact ih h.clone merged
    | initializeReachabilityMapping handle node cond =>
      obtain ⟨owner', next⟩ := h.initializeReachabilityMapping merged.1
      exact ih next merged.2
    | initializeExpressionMapping handle expression value cond =>
      exact ih h.initializeExpressionMapping merged.2
    | mergeAnnotationMapping handle other => exact ih h.mergeAnnotationMapping merged

end AnnotationHeap

/-- The conditions of the nodes that a map names. -/
def NodeAnnotationMap.reachabilityConditions (m : NodeAnnotationMap)
    (objects : ReachabilityExpressions) : OrderedMap fun _ : Node => Expr .boolean :=
  m.reachabilityMap.mapValues fun _ address => objects.getD address .true

/-- The values of the expressions that a map names. -/
def NodeAnnotationMap.originalExpressions (m : NodeAnnotationMap) :
    OrderedMap fun e : ExpressionNode => Expr e.type :=
  m.substitutionMap.mapValues fun _ s => s.originalExpression

namespace Z3SolverMap

variable [Z3]

/-- `Z3SolverReachabilityMap(map)`. -/
def createReachabilityMap (m : NodeAnnotationMap) (objects : ReachabilityExpressions) :
    Z3SolverMap fun _ : Node => .boolean where
  nodes := (m.reachabilityConditions objects).mapValues fun _ e => ⟨Z3.simplify (Z3.set e), none⟩
  symbolMap := m.reachabilitySymbolMap

/-- `Z3SolverSubstitutionMap(map)`. -/
def createSubstitutionMap (m : NodeAnnotationMap) : Z3SolverMap ExpressionNode.type where
  nodes := m.originalExpressions.mapValues fun _ e => ⟨Z3.simplify (Z3.set e), none⟩
  symbolMap := m.expressionSymbolMap

end Z3SolverMap

namespace AnnotationHeap

variable {s : AnnotationHeap} {owner : Nat → Node}

/-- The annotations that a run leaves for the reachability map. -/
def Valid.reachability (h : s.Valid [] owner) : ReachabilityAnnotations where
  expressions := (s.maps 0).reachabilityConditions s.objects
  symbolMap := (s.maps 0).reachabilitySymbolMap
  collected := by
    intro node cond found x mem
    rw [NodeAnnotationMap.reachabilityConditions, OrderedMap.find_mapValues,
      Option.map_eq_some_iff] at found
    obtain ⟨address, mapped, rfl⟩ := found
    obtain ⟨bound, rfl⟩ := h.owned 0 node address mapped
    have stored := List.getElem?_eq_getElem bound
    rw [List.getD_eq_getElem?_getD, stored, Option.getD_some] at mem
    obtain ⟨handle, led, rfl⟩ := h.symbols address _ stored x mem
    exact led
  known := by
    intro x node mem
    rw [NodeAnnotationMap.reachabilityConditions, OrderedMap.keys_mapValues]
    exact (h.indexed 0).node x node mem

/-- The annotations that a run leaves for the substitution map. -/
def Valid.substitution (h : s.Valid [] owner) : SubstitutionAnnotations where
  expressions := (s.maps 0).originalExpressions
  symbolMap := (s.maps 0).expressionSymbolMap
  collected := by
    intro e value found x mem
    rw [NodeAnnotationMap.originalExpressions, OrderedMap.find_mapValues,
      Option.map_eq_some_iff] at found
    obtain ⟨original, mapped, rfl⟩ := found
    exact (h.indexed 0).value e original mapped x mem
  known := by
    intro x e mem
    rw [NodeAnnotationMap.originalExpressions, OrderedMap.keys_mapValues]
    exact (h.indexed 0).expression x e mem

end AnnotationHeap

section Recomputation

variable [Z3] [IrOrder] {κ : Type} [DecidableEq κ] {type : κ → Ty}

/-- After a full recomputation of the created map under `K`, recomputing the nodes that depend on
the symbols of the set is a full recomputation under `K'`. It does not fail, it leaves every
expression the verdict that it has under `K'`, and it reports a change exactly when a verdict
changes. -/
def TargetedIsFull (created : Z3SolverMap type) (expressions : OrderedMap fun k => Expr (type k))
    (symbolSet : SymbolSet) (K K' : ControlPlaneConstraints) : Prop :=
  ∀ m c, created.recomputeAll K.assignmentSet = some (m, c) →
    ∃ m' changed full c', m.recompute symbolSet K'.assignmentSet = some (m', changed) ∧
      created.recomputeAll K'.assignmentSet = some (full, c') ∧
      (∀ k, m'.nodes.find k = full.nodes.find k) ∧
      m'.Exact expressions K'.assignmentSet ∧
      (changed = true ↔ ∃ k, m'.verdict k ≠ m.verdict k)

theorem targetedIsFull_create [Z3.Local] (annotations : Annotations type) {symbolSet : SymbolSet}
    {K K' : ControlPlaneConstraints}
    (differing : ∀ x, K.assignmentSet.find x ≠ K'.assignmentSet.find x → x ∈ symbolSet) :
    TargetedIsFull (.create annotations) annotations.expressions symbolSet K K' := by
  intro m c run
  obtain ⟨m₁, c₁, run₁, tracks, recomputed⟩ :=
    Z3SolverMap.exists_recomputeAll (Z3SolverMap.tracks_create annotations) K.assignmentSet
  obtain ⟨rfl, rfl⟩ := Prod.mk.inj (Option.some.inj (run.symm.trans run₁))
  obtain ⟨full, c', runFull, -, recomputedFull⟩ :=
    Z3SolverMap.exists_recomputeAll (Z3SolverMap.tracks_create annotations) K'.assignmentSet
  have all : ∀ set : Z3ControlPlaneAssignmentSet, ∀ k ∉ (Z3SolverMap.create annotations).nodes.keys,
      (computeNode type set).UpToDate (Z3SolverMap.create annotations).nodes k :=
    fun _ _ => Z3SolverMap.upToDate_of_not_mem
  have upToDate : m.UpToDate K.assignmentSet := recomputed.upToDate (all _)
  have covered : annotations.Covered symbolSet K.assignmentSet K'.assignmentSet := by
    rintro k e found ⟨x, mem, different⟩
    exact mem_targetNodes.mpr ⟨x, differing x different, annotations.collected k e found x mem⟩
  have rest := upToDate_of_covered tracks upToDate covered
  obtain ⟨m', changed, run', tracks', recomputed'⟩ :=
    Z3SolverMap.exists_recompute tracks symbolSet K'.assignmentSet
  refine ⟨m', changed, full, c', run', runFull, fun k => ?_,
    tracks'.exact (recomputed'.upToDate rest), ?_⟩
  · rw [recomputed'.find_of_upToDate rest, recomputed.find_of_upToDate (all _),
      recomputedFull.find_of_upToDate (all _), Option.map_map]
    refine congrArg (Option.map · _) (funext fun e => ?_)
    simp only [Function.comp_apply, compute_computeNode]
  · have told := Z3SolverMap.unchanged_iff_of_recomputed rest recomputed'
    rw [← not_iff_not, Bool.not_eq_true, told, not_exists]
    simp only [ne_eq, not_not]

end Recomputation

namespace AnnotationHeap

/-- For the map of every run in which every clone is merged back, a recomputation of the nodes that
depend on the symbols whose assignments differ is a full one. -/
theorem targetedRecomputation_complete [Z3] [IrOrder] [Z3.Local] (l : List AnnotationOperation)
    (merged : AnnotationOperation.MergedBack l) (K K' : ControlPlaneConstraints)
    (symbolSet : SymbolSet)
    (differing : ∀ x, K.assignmentSet.find x ≠ K'.assignmentSet.find x → x ∈ symbolSet) :
    let s := AnnotationOperation.runAll .empty l
    TargetedIsFull (.createReachabilityMap (s.maps 0) s.objects)
        ((s.maps 0).reachabilityConditions s.objects) symbolSet K K' ∧
      TargetedIsFull (.createSubstitutionMap (s.maps 0)) (s.maps 0).originalExpressions symbolSet
        K K' := by
  obtain ⟨owner, valid⟩ := (Valid.empty l).runAll merged
  exact ⟨targetedIsFull_create valid.reachability differing,
    targetedIsFull_create valid.substitution differing⟩

end AnnotationHeap

section Clones

attribute [local instance] exprSolver exprSolver.local IrOrder.literals

/-- A node that a state maps and then a clone of it, which is merged back. -/
def clonedVisits : List AnnotationOperation :=
  [.initializeReachabilityMapping 0 1 (getTableActive "t").expr, .clone 0 1,
    .initializeReachabilityMapping 1 1 (.lNot (getTableActive "t").expr),
    .mergeAnnotationMapping 0 1]

/-- The constraints of a table without entries. -/
def inactiveTable : ControlPlaneConstraints :=
  OrderedMap.empty.emplace "t" (.tableConfiguration (.unconfigured ⟨OrderedMap.empty⟩))

theorem targetedRecomputation_clonedVisits :
    TargetedIsFull (.createReachabilityMap
        ((AnnotationOperation.runAll .empty clonedVisits).maps 0)
        (AnnotationOperation.runAll .empty clonedVisits).objects)
      (((AnnotationOperation.runAll .empty clonedVisits).maps 0).reachabilityConditions
        (AnnotationOperation.runAll .empty clonedVisits).objects)
      inactiveTable.assignmentSet.keys OrderedMap.empty inactiveTable := by
  have merged : AnnotationOperation.MergedBack clonedVisits := by
    simp [AnnotationOperation.MergedBack, AnnotationOperation.Reaches, clonedVisits]
  refine (AnnotationHeap.targetedRecomputation_complete clonedVisits merged _ _ _ ?_).1
  intro x different
  by_contra absent
  exact different (OrderedMap.find_eq_none.mpr absent).symm

end Clones

end Flay
