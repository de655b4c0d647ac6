import Flay.Interpreter.Simulation

/-! The reachability conditions that the interpreter records. States that come from one state
record on their own, and the objects that they record to are shared, so that a ledger says which
object a node has in any of them. -/

namespace Flay

open Container

/-- The object that a node is mapped to. -/
def ExecutionState.address (s : ExecutionState) (node : Node) : Option Nat :=
  s.nodeAnnotationMap.reachabilityMap.find node

/-- Each node is mapped to an object that exists. -/
def Interpretation.Addressed (i : Interpretation) : Prop :=
  ∀ node address, i.state.address node = some address → address < i.objects.length

/-- The condition recorded for the node is true under the valuation. -/
def Interpretation.Reaches (i : Interpretation) (ρ : Valuation) (node : Node) : Prop :=
  ∃ address cond, i.state.address node = some address ∧ i.objects[address]? = some cond ∧
    cond.eval ρ = true

/-- The conditions recorded for all nodes that a run has taken are true. -/
def Interpretation.Records (i : Interpretation) (ρ : Valuation) (w : World) : Prop :=
  ∀ node, .taken node ∈ w.events → i.Reaches ρ node

/-- A condition that is true stays true. -/
def Weakened (objects objects' : ReachabilityExpressions) : Prop :=
  ∀ (ρ : Valuation) (address : Nat) (cond : Expr .boolean),
    objects[address]? = some cond → cond.eval ρ = true →
      ∃ cond' : Expr .boolean, objects'[address]? = some cond' ∧ cond'.eval ρ = true

/-- The ledger has the object of every node that the state maps. -/
def Agrees (ledger : Node → Option Nat) (s : ExecutionState) : Prop :=
  ∀ node address, s.address node = some address → ledger node = some address

/-- The ledger of the states that share the objects. -/
structure Keeps (ledger : Node → Option Nat) (i : Interpretation) : Prop where
  agrees : Agrees ledger i.state
  bounded : ∀ node address, ledger node = some address → address < i.objects.length

/-- What the visit of some nodes makes of the ledger, the state and the objects. -/
structure Grown (nodes : List Node) (ledger : Node → Option Nat) (i : Interpretation)
    (ledger' : Node → Option Nat) (i' : Interpretation) : Prop where
  keeps : Keeps ledger' i'
  extended : ∀ node address, ledger node = some address → ledger' node = some address
  elsewhere : ∀ node ∉ nodes, ledger' node = ledger node
  kept : ∀ node address, i.state.address node = some address → i'.state.address node = some address
  frame : ∀ node ∉ nodes, i'.state.address node = i.state.address node
  weakened : Weakened i.objects i'.objects

theorem Weakened.refl (objects : ReachabilityExpressions) : Weakened objects objects :=
  fun _ _ cond found holds => ⟨cond, found, holds⟩

theorem Weakened.trans {objects objects' objects'' : ReachabilityExpressions}
    (h : Weakened objects objects') (h' : Weakened objects' objects'') :
    Weakened objects objects'' := by
  intro ρ address cond found holds
  obtain ⟨cond', found', holds'⟩ := h ρ address cond found holds
  exact h' ρ address cond' found' holds'

section

variable {i j : Interpretation} {ρ : Valuation} {w w' : World}

theorem Interpretation.Reaches.mono {node : Node}
    (h : i.Reaches ρ node)
    (kept : ∀ address, i.state.address node = some address → j.state.address node = some address)
    (weakened : Weakened i.objects j.objects) : j.Reaches ρ node := by
  obtain ⟨address, cond, mapped, found, holds⟩ := h
  obtain ⟨cond', found', holds'⟩ := weakened ρ address cond found holds
  exact ⟨address, cond', kept address mapped, found', holds'⟩

theorem Interpretation.Records.mono (h : i.Records ρ w)
    (kept : ∀ node address, i.state.address node = some address →
      j.state.address node = some address)
    (weakened : Weakened i.objects j.objects) : j.Records ρ w :=
  fun node taken => (h node taken).mono (kept node) weakened

theorem Interpretation.Records.of_events (h : i.Records ρ w)
    (same : ∀ node, .taken node ∈ w'.events → .taken node ∈ w.events) : i.Records ρ w' :=
  fun node taken => h node (same node taken)

theorem Interpretation.Records.emit (h : i.Records ρ w) (taken : Bool) {node : Node}
    (reaches : taken = true → i.Reaches ρ node) :
    i.Records ρ (if taken then w.emit (.taken node) else w) := by
  cases taken with
  | false => exact h
  | true =>
    intro node' mem
    have events : Event.taken node' ∈ w.events ++ [.taken node] := mem
    rw [List.mem_append, List.mem_singleton] at events
    obtain mem | same := events
    · exact h node' mem
    · cases same
      exact reaches rfl

/-- What an expression reads is all that it records. -/
theorem taken_eval {t : Ty} (e : ProgramExpr Empty t) {w : World} {node : Node}
    (h : .taken node ∈ (e.eval Handlers.none w).2.events) : .taken node ∈ w.events := by
  induction e generalizing w with
  | lit => exact h
  | path => simpa [ProgramExpr.eval] using h
  | hit _ table | miss _ table | actionRun table => exact table.elim
  | lNot e ih | unary _ e ih => exact ih h
  | lAnd left right ihLeft ihRight | lOr left right ihLeft ihRight =>
    rw [ProgramExpr.eval] at h
    split at h
    · first
      | exact ihLeft (ihRight h)
      | exact ihLeft h
    · first
      | exact ihLeft (ihRight h)
      | exact ihLeft h
  | equ left right ihLeft ihRight | neq left right ihLeft ihRight
  | binary _ left right ihLeft ihRight => exact ihLeft (ihRight h)
  | mux e0 e1 e2 ih0 ih1 ih2 =>
    rw [ProgramExpr.eval] at h
    split at h
    · exact ih0 (ih1 h)
    · exact ih0 (ih2 h)

end

namespace Grown

variable {nodes nodes' : List Node} {ledger ledger' ledger'' : Node → Option Nat}
  {i j k : Interpretation}

theorem trans (h : Grown nodes ledger i ledger' j) (h' : Grown nodes' ledger' j ledger'' k) :
    Grown (nodes ++ nodes') ledger i ledger'' k where
  keeps := h'.keeps
  extended := fun node address mapped => h'.extended node address (h.extended node address mapped)
  elsewhere := by
    intro node absent
    rw [List.mem_append, not_or] at absent
    exact (h'.elsewhere node absent.2).trans (h.elsewhere node absent.1)
  kept := fun node address mapped => h'.kept node address (h.kept node address mapped)
  frame := by
    intro node absent
    rw [List.mem_append, not_or] at absent
    exact (h'.frame node absent.2).trans (h.frame node absent.1)
  weakened := h.weakened.trans h'.weakened

theorem mono (h : Grown nodes ledger i ledger' j) (more : nodes ⊆ nodes') :
    Grown nodes' ledger i ledger' j where
  keeps := h.keeps
  extended := h.extended
  elsewhere := fun node absent => h.elsewhere node fun mem => absent (more mem)
  kept := h.kept
  frame := fun node absent => h.frame node fun mem => absent (more mem)
  weakened := h.weakened

theorem of_address (keeps : Keeps ledger i)
    (address : ∀ node, j.state.address node = i.state.address node)
    (objects : j.objects = i.objects) : Grown [] ledger i ledger j where
  keeps :=
    { agrees := fun node a mapped => keeps.agrees node a (by rw [← address, mapped])
      bounded := objects ▸ keeps.bounded }
  extended := fun _ _ mapped => mapped
  elsewhere := fun _ _ => rfl
  kept := fun node a mapped => by rw [address, mapped]
  frame := fun node _ => address node
  weakened := objects ▸ .refl _

theorem records (h : Grown nodes ledger i ledger' j) {ρ : Valuation} {w : World}
    (recorded : i.Records ρ w) : j.Records ρ w :=
  recorded.mono h.kept h.weakened

/-- Where the ledger agrees with the state on some nodes, it still does after others. -/
theorem fresh (h : Grown nodes ledger i ledger' j)
    (before : ∀ node ∈ nodes', ledger node = i.state.address node)
    (disjoint : List.Disjoint nodes nodes') :
    ∀ node ∈ nodes', ledger' node = j.state.address node := by
  intro node mem
  have absent : node ∉ nodes := fun h => disjoint h mem
  rw [h.elsewhere node absent, h.frame node absent]
  exact before node mem

/-- The visit of some nodes by a state that is resumed elsewhere, seen from the state that goes
on. -/
theorem fork {s : ExecutionState} (h : Grown nodes ledger (i.resume s) ledger' j)
    (keeps : Keeps ledger i) : Grown nodes ledger i ledger' (j.resume i.state) where
  keeps :=
    { agrees := fun node a mapped => h.extended node a (keeps.agrees node a mapped)
      bounded := h.keeps.bounded }
  extended := h.extended
  elsewhere := h.elsewhere
  kept := fun _ _ mapped => mapped
  frame := fun _ _ => rfl
  weakened := h.weakened

end Grown

section Merge

variable {ledger : Node → Option Nat} {s t : ExecutionState} {node : Node} {a : Nat}

theorem ExecutionState.address_merge (s mergeState : ExecutionState) (node : Node) :
    (s.merge mergeState).address node = (s.address node).or (mergeState.address node) :=
  OrderedMap.find_insertAll _ _ node

theorem Agrees.merge (h : Agrees ledger s) (h' : Agrees ledger t) : Agrees ledger (s.merge t) := by
  intro node address mapped
  rw [ExecutionState.address_merge, Option.or_eq_some_iff] at mapped
  obtain mapped | ⟨-, mapped⟩ := mapped
  · exact h node address mapped
  · exact h' node address mapped

theorem ExecutionState.address_merge_left (h : s.address node = some a) :
    (s.merge t).address node = some a := by
  rw [address_merge, h]
  rfl

/-- A merged state keeps the objects of both, as they are those of one ledger. -/
theorem ExecutionState.address_merge_right (h : Agrees ledger s) (h' : Agrees ledger t)
    (mapped : t.address node = some a) : (s.merge t).address node = some a := by
  rw [address_merge]
  cases known : s.address node with
  | none => exact mapped
  | some a' =>
    have same := (h node a' known).symm.trans (h' node a mapped)
    exact same

end Merge

section Mapping

variable {ledger : Node → Option Nat} {i : Interpretation} {node : Node} {a : Nat}

/-- The visit of a node that has an object. -/
theorem Grown.addReachabilityMapping_mapped (keeps : Keeps ledger i)
    (known : i.state.address node = some a) (cond : Expr .boolean) :
    Grown [node] ledger i ledger (i.addReachabilityMapping node cond) ∧
      ∀ ρ, i.state.Holds ρ → cond.eval ρ = true →
        (i.addReachabilityMapping node cond).Reaches ρ node := by
  have inside : a < i.objects.length := keeps.bounded node a (keeps.agrees node a known)
  have found : i.state.nodeAnnotationMap.reachabilityMap.find node = some a := known
  have state : ∀ n, (i.addReachabilityMapping node cond).state.address n = i.state.address n := by
    intro n
    simp [Interpretation.addReachabilityMapping, ExecutionState.address,
      NodeAnnotationMap.initializeReachabilityMapping, found]
  have objects : (i.addReachabilityMapping node cond).objects =
      i.objects.modify a fun old => .lOr old (.lAnd i.state.getExecutionCondition cond) := by
    simp [Interpretation.addReachabilityMapping,
      NodeAnnotationMap.initializeReachabilityMapping, found]
  constructor
  · refine
      { keeps :=
          { agrees := fun n b mapped => keeps.agrees n b (by rw [← state, mapped])
            bounded := by simpa [objects] using keeps.bounded }
        extended := fun _ _ mapped => mapped
        elsewhere := fun _ _ => rfl
        kept := fun n b mapped => by rw [state, mapped]
        frame := fun n _ => state n
        weakened := ?_ }
    intro ρ b old looked holds
    rw [objects, List.getElem?_modify]
    by_cases same : a = b
    · exact ⟨_, by rw [looked]; simp [same]; rfl, by simp [holds]⟩
    · exact ⟨old, by rw [looked]; simp [same], holds⟩
  · intro ρ holds condHolds
    refine ⟨a, .lOr i.objects[a] (.lAnd i.state.getExecutionCondition cond),
      (state node).trans known, ?_, ?_⟩
    · rw [objects, List.getElem?_modify, List.getElem?_eq_getElem inside]
      simp
    · rw [Expr.eval_lOr, Expr.eval_lAnd, condHolds, holds, Bool.and_true, Bool.or_true]

/-- The visit of a node that has no object gives it one. -/
theorem Grown.addReachabilityMapping_new (keeps : Keeps ledger i)
    (unknown : i.state.address node = none) (unmapped : ledger node = none)
    (cond : Expr .boolean) :
    Grown [node] ledger i (fun n => if n = node then some i.objects.length else ledger n)
        (i.addReachabilityMapping node cond) ∧
      ∀ ρ, i.state.Holds ρ → cond.eval ρ = true →
        (i.addReachabilityMapping node cond).Reaches ρ node := by
  have missing : i.state.nodeAnnotationMap.reachabilityMap.find node = none := unknown
  have state : ∀ n, (i.addReachabilityMapping node cond).state.address n =
      if n = node then some i.objects.length else i.state.address n := by
    intro n
    by_cases same : n = node
    · subst same
      simp [Interpretation.addReachabilityMapping, ExecutionState.address,
        NodeAnnotationMap.initializeReachabilityMapping, missing, OrderedMap.find_emplace_self]
    · simp [Interpretation.addReachabilityMapping, ExecutionState.address, same,
        NodeAnnotationMap.initializeReachabilityMapping, missing,
        OrderedMap.find_emplace_ne _ _ same]
  have objects : (i.addReachabilityMapping node cond).objects =
      i.objects ++ [.lAnd i.state.getExecutionCondition cond] := by
    simp [Interpretation.addReachabilityMapping,
      NodeAnnotationMap.initializeReachabilityMapping, missing]
  have other : ∀ n b, ledger n = some b → n ≠ node := by
    rintro n b mapped rfl
    rw [unmapped] at mapped
    cases mapped
  constructor
  · refine
      { keeps := ⟨?_, ?_⟩
        extended := fun n b mapped => by rw [if_neg (other n b mapped), mapped]
        elsewhere := fun n absent => if_neg (by simpa using absent)
        kept := fun n b mapped => by
          rw [state, if_neg (other n b (keeps.agrees n b mapped)), mapped]
        frame := fun n absent => by rw [state, if_neg (by simpa using absent)]
        weakened := ?_ }
    · intro n b mapped
      rw [state] at mapped
      by_cases same : n = node
      · rw [if_pos same] at mapped
        exact (if_pos same).trans mapped
      · rw [if_neg same] at mapped
        exact (if_neg same).trans (keeps.agrees n b mapped)
    · intro n b mapped
      rw [objects, List.length_append, List.length_singleton]
      split at mapped
      · cases mapped
        omega
      · have inside := keeps.bounded n b mapped
        omega
    · intro ρ b old looked holds
      have inside := (List.getElem?_eq_some_iff.mp looked).1
      exact ⟨old, by rw [objects, List.getElem?_append_left inside, looked], holds⟩
  · intro ρ holds condHolds
    refine ⟨i.objects.length, .lAnd i.state.getExecutionCondition cond, ?_, ?_, ?_⟩
    · rw [state, if_pos rfl]
    · simp [objects]
    · rw [Expr.eval_lAnd, condHolds, holds, Bool.and_true]

/-- A node that is visited is mapped to a condition that holds if the path is taken and the
condition given is true. -/
theorem Grown.addReachabilityMapping (keeps : Keeps ledger i)
    (fresh : ledger node = i.state.address node) (cond : Expr .boolean) :
    ∃ ledger', Grown [node] ledger i ledger' (i.addReachabilityMapping node cond) ∧
      ∀ ρ, i.state.Holds ρ → cond.eval ρ = true →
        (i.addReachabilityMapping node cond).Reaches ρ node := by
  cases known : i.state.address node with
  | some a => exact ⟨ledger, Grown.addReachabilityMapping_mapped keeps known cond⟩
  | none =>
    exact ⟨_, Grown.addReachabilityMapping_new keeps known (fresh.trans known) cond⟩

end Mapping

/-! ### Runs -/

/-- The interpreter, which visits each of the nodes once, records those that the run takes. -/
def Recording (vars : List StateVariable) (nodes : List Node) (i i' : Interpretation)
    (run : World → World) : Prop :=
  nodes.Nodup → ∀ ledger, Keeps ledger i →
    (∀ node ∈ nodes, ledger node = i.state.address node) →
      ∃ ledger', Grown nodes ledger i ledger' i' ∧
        ∀ ρ w, i.state.Holds ρ → Simulates ρ vars i.state w → i.Records ρ w →
          i'.Records ρ (run w)

namespace Recording

variable {vars : List StateVariable} {nodes nodes' : List Node} {i j k t e : Interpretation}
  {run run' : World → World}

theorem trans (h : Recording vars nodes i j run) (simulation : Simulation vars i.state j.state run)
    (h' : Recording vars nodes' j k run') :
    Recording vars (nodes ++ nodes') i k fun w => run' (run w) := by
  intro nodup ledger keeps fresh
  obtain ⟨nodup₁, nodup₂, disjoint⟩ := List.nodup_append'.mp nodup
  obtain ⟨ledger₁, grown₁, records₁⟩ :=
    h nodup₁ ledger keeps fun node mem => fresh node (List.mem_append_left _ mem)
  have fresh₁ := grown₁.fresh (fun node mem => fresh node (List.mem_append_right _ mem)) disjoint
  obtain ⟨ledger₂, grown₂, records₂⟩ := h' nodup₂ ledger₁ grown₁.keeps fresh₁
  refine ⟨ledger₂, grown₁.trans grown₂, fun ρ w holds simulates recorded => ?_⟩
  have holds₁ := (ExecutionState.holds_congr simulation.condition).mpr holds
  exact records₂ ρ _ holds₁ (simulation.values ρ w holds simulates)
    (records₁ ρ w holds simulates recorded)

theorem mono (h : Recording vars nodes i j run) (more : nodes.Sublist nodes') :
    Recording vars nodes' i j run := by
  intro nodup ledger keeps fresh
  obtain ⟨ledger', grown, records⟩ :=
    h (nodup.sublist more) ledger keeps fun node mem => fresh node (more.subset mem)
  exact ⟨ledger', grown.mono more.subset, records⟩

/-- What maps no node takes none. -/
theorem of_address (address : ∀ node, j.state.address node = i.state.address node)
    (objects : j.objects = i.objects)
    (events : ∀ w node, .taken node ∈ (run w).events → .taken node ∈ w.events) :
    Recording vars [] i j run := by
  intro _ ledger keeps _
  have grown := Grown.of_address keeps address objects
  exact ⟨ledger, grown, fun ρ w _ _ recorded => grown.records (recorded.of_events (events w))⟩

theorem of_unchanged (h : i.Unchanged j)
    (events : ∀ w node, .taken node ∈ (run w).events → .taken node ∈ w.events) :
    Recording vars [] i j run :=
  of_address h.reachability h.objects events

theorem addReachabilityMapping {cond : Expr .boolean} {test : World → Bool}
    (evaluated : ∀ ρ w, Simulates ρ vars i.state w → cond.eval ρ = test w) (node : Node) :
    Recording vars [node] i (i.addReachabilityMapping node cond)
      fun w => if test w then w.emit (.taken node) else w := by
  intro _ ledger keeps fresh
  obtain ⟨ledger', grown, reaches⟩ :=
    Grown.addReachabilityMapping keeps (fresh node (List.mem_singleton.mpr rfl)) cond
  refine ⟨ledger', grown, fun ρ w holds simulates recorded => ?_⟩
  exact (grown.records recorded).emit (test w) fun tested =>
    reaches ρ holds ((evaluated ρ w simulates).trans tested)

/-- The nodes of a branch and those of the alternative are recorded apart, and the merged state has
both. -/
theorem branch {cond : Expr .boolean} {test : World → Bool} {f g : World → World}
    (evaluated : ∀ ρ w, Simulates ρ vars i.state w → cond.eval ρ = test w)
    (ifTrue : Recording vars nodes (i.resume (i.state.pushExecutionCondition cond)) t f)
    (ifFalse : Recording vars nodes' (t.resume i.state) e g) :
    Recording vars (nodes ++ nodes') i (e.resume (e.state.merge t.state))
      fun w => if test w then f w else g w := by
  intro nodup ledger keeps fresh
  obtain ⟨nodup₁, nodup₂, disjoint⟩ := List.nodup_append'.mp nodup
  obtain ⟨ledger₁, grown₁, records₁⟩ :=
    ifTrue nodup₁ ledger ⟨keeps.agrees, keeps.bounded⟩ fun node mem =>
      fresh node (List.mem_append_left _ mem)
  -- The alternative starts from the state ahead of the branch, with the objects after it.
  have between := grown₁.fork keeps
  have fresh₁ := between.fresh (fun node mem => fresh node (List.mem_append_right _ mem)) disjoint
  obtain ⟨ledger₂, grown₂, records₂⟩ := ifFalse nodup₂ ledger₁ between.keeps fresh₁
  have agrees : Agrees ledger₂ t.state := fun node a mapped =>
    grown₂.extended node a (grown₁.keeps.agrees node a mapped)
  refine ⟨ledger₂,
    { keeps := ⟨grown₂.keeps.agrees.merge agrees, grown₂.keeps.bounded⟩
      extended := (between.trans grown₂).extended
      elsewhere := (between.trans grown₂).elsewhere
      kept := fun node a mapped => ExecutionState.address_merge_left (grown₂.kept node a mapped)
      frame := ?_
      weakened := (between.trans grown₂).weakened }, ?_⟩
  · intro node absent
    have same := (between.trans grown₂).frame node absent
    rw [List.mem_append, not_or] at absent
    have sameT : t.state.address node = i.state.address node := grown₁.frame node absent.1
    exact (ExecutionState.address_merge _ _ _).trans (by rw [same, sameT, Option.or_self])
  · intro ρ w holds simulates recorded
    have known := evaluated ρ w simulates
    dsimp only
    split
    · rename_i tested
      have pushed := ExecutionState.holds_push.mpr ⟨holds, known.trans tested⟩
      have recordedT := records₁ ρ w pushed simulates recorded
      exact recordedT.mono
        (fun _ _ => ExecutionState.address_merge_right grown₂.keeps.agrees agrees) grown₂.weakened
    · have recordedE := records₂ ρ w holds simulates (between.records recorded)
      exact recordedE.mono (fun _ _ => ExecutionState.address_merge_left) (.refl _)

end Recording

end Flay
