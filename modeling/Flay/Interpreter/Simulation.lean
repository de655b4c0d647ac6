import Flay.Interpreter.Stepper
import Flay.Program.Semantics

/-! The symbolic execution of a statement simulates its concrete execution, on the variables that
exist. -/

namespace Flay

open Container

namespace ProgramExpr

variable {τ : Type}

/-- The variables that an expression reads. -/
def reads : {t : Ty} → ProgramExpr τ t → List StateVariable
  | _, .lit _ => []
  | t, .path _ name _ => [⟨name, t⟩]
  | _, .hit _ _ => []
  | _, .miss _ _ => []
  | _, .actionRun _ => []
  | _, .lNot e => e.reads
  | _, .lAnd left right => left.reads ++ right.reads
  | _, .lOr left right => left.reads ++ right.reads
  | _, .equ left right => left.reads ++ right.reads
  | _, .neq left right => left.reads ++ right.reads
  | _, .unary _ e => e.reads
  | _, .binary _ left right => left.reads ++ right.reads
  | _, .mux e0 e1 e2 => e0.reads ++ (e1.reads ++ e2.reads)

end ProgramExpr

section Values

variable {vars : List StateVariable} {ρ : Valuation} {s s' : ExecutionState} {w w' : World}

/-- Under the valuation the variables have the values that they have in the world. -/
def Simulates (ρ : Valuation) (vars : List StateVariable) (s : ExecutionState) (w : World) : Prop :=
  ∀ x ∈ vars, s.value ρ x = some (w.env x)

theorem Simulates.of_env (h : Simulates ρ vars s w) (same : w'.env = w.env) :
    Simulates ρ vars s w' := by
  intro x hx
  rw [same]
  exact h x hx

theorem Simulates.of_value (h : Simulates ρ vars s w)
    (same : ∀ x ∈ vars, s'.value ρ x = s.value ρ x) : Simulates ρ vars s' w :=
  fun x hx => (same x hx).trans (h x hx)

theorem Simulates.set {x : StateVariable} {value : Expr x.type} {v : x.type.Val}
    (h : Simulates ρ vars s w) (evaluated : value.eval ρ = v) :
    Simulates ρ vars (s.set x value) (w.set x v) := by
  intro y hy
  by_cases same : y = x
  · subst same
    simp [ExecutionState.set, ExecutionState.value, OrderedMap.find_set_self, evaluated]
  · have kept := h y hy
    simpa [ExecutionState.set, ExecutionState.value, OrderedMap.find_set_ne _ _ same,
      World.env_set_ne _ _ same] using kept

/-- Where the condition of the merged state is false, nothing changes. -/
theorem Simulates.merge_of_false {mergeState : ExecutionState} (h : Simulates ρ vars s w)
    (defined : vars ⊆ mergeState.env.keys)
    (fails : mergeState.getExecutionCondition.eval ρ = false) :
    Simulates ρ vars (s.merge mergeState) w := by
  refine h.of_value fun x hx => ?_
  rw [ExecutionState.value_merge s mergeState (defined hx), fails]
  rfl

/-- Where the condition of the merged state is true, its values take over. -/
theorem Simulates.merge_of_true {mergeState : ExecutionState} (h : Simulates ρ vars mergeState w)
    (defined : vars ⊆ s.env.keys) (holds : mergeState.Holds ρ) :
    Simulates ρ vars (s.merge mergeState) w := by
  intro x hx
  have value := h x hx
  have exists_current : ∃ current, s.value ρ x = some current := by
    obtain ⟨e, found⟩ := OrderedMap.exists_find_of_mem (defined hx)
    exact ⟨e.eval ρ, by rw [ExecutionState.value, found]; rfl⟩
  have known : x ∈ mergeState.env.keys := by
    rw [ExecutionState.value] at value
    obtain ⟨e, found, -⟩ := Option.map_eq_some_iff.mp value
    exact OrderedMap.mem_keys_of_find found
  obtain ⟨current, found⟩ := exists_current
  have taken : mergeState.getExecutionCondition.eval ρ = true := holds
  rw [ExecutionState.value_merge s mergeState known, if_pos taken, found]
  exact value

theorem ExecutionState.holds_push {cond : Expr .boolean} :
    (s.pushExecutionCondition cond).Holds ρ ↔ s.Holds ρ ∧ cond.eval ρ = true := by
  rw [Holds, eval_pushExecutionCondition, Bool.and_eq_true]
  rfl

theorem ExecutionState.holds_congr (same : s'.executionCondition = s.executionCondition) :
    s'.Holds ρ ↔ s.Holds ρ := by
  rw [Holds, Holds, getExecutionCondition, getExecutionCondition, same]

end Values

/-! ### Expressions -/

section Expressions

variable {t : Ty} {w w' : World}

/-- An expression has no effect but on the record of the run. -/
theorem env_eval (e : ProgramExpr Empty t) (w : World) :
    (e.eval Handlers.none w).2.env = w.env := by
  induction e generalizing w with
  | lit => rfl
  | path => rfl
  | hit _ table | miss _ table | actionRun table => exact table.elim
  | lNot e ih | unary _ e ih => exact ih w
  | lAnd left right ihLeft ihRight | lOr left right ihLeft ihRight =>
    rw [ProgramExpr.eval]
    split
    · first
      | exact (ihRight _).trans (ihLeft w)
      | exact ihLeft w
    · first
      | exact (ihRight _).trans (ihLeft w)
      | exact ihLeft w
  | equ left right ihLeft ihRight | neq left right ihLeft ihRight
  | binary _ left right ihLeft ihRight => exact (ihRight _).trans (ihLeft w)
  | mux e0 e1 e2 ih0 ih1 ih2 =>
    rw [ProgramExpr.eval]
    split
    · exact (ih1 _).trans (ih0 w)
    · exact (ih2 _).trans (ih0 w)

/-- The value of an expression depends on the variables only. -/
theorem fst_eval_congr (e : ProgramExpr Empty t) (same : w.env = w'.env) :
    (e.eval Handlers.none w).1 = (e.eval Handlers.none w').1 := by
  induction e generalizing w w' with
  | lit => rfl
  | path node name t => exact congrFun same ⟨name, t⟩
  | hit _ table | miss _ table | actionRun table => exact table.elim
  | lNot e ih => simp only [ProgramExpr.eval, ih same]
  | unary op e ih => simp only [ProgramExpr.eval, ih same]
  | lAnd left right ihLeft ihRight | lOr left right ihLeft ihRight =>
    have after := (env_eval left w).trans (same.trans (env_eval left w').symm)
    simp only [ProgramExpr.eval, ihLeft same]
    split
    · first
      | exact ihRight after
      | rfl
    · first
      | exact ihRight after
      | rfl
  | equ left right ihLeft ihRight | neq left right ihLeft ihRight
  | binary _ left right ihLeft ihRight =>
    have after := (env_eval left w).trans (same.trans (env_eval left w').symm)
    simp only [ProgramExpr.eval, ihLeft same, ihRight after]
  | mux e0 e1 e2 ih0 ih1 ih2 =>
    have after := (env_eval e0 w).trans (same.trans (env_eval e0 w').symm)
    simp only [ProgramExpr.eval, ih0 same]
    split
    · exact ih1 after
    · exact ih2 after

/-- What an expression leaves as it is: all but the record of the expressions that are read. -/
structure Interpretation.Unchanged (i i' : Interpretation) : Prop where
  find : ∀ x, i'.state.env.find x = i.state.env.find x
  condition : i'.state.executionCondition = i.state.executionCondition
  reachability : ∀ n, i'.state.nodeAnnotationMap.reachabilityMap.find n =
    i.state.nodeAnnotationMap.reachabilityMap.find n
  objects : i'.objects = i.objects

namespace Interpretation.Unchanged

variable {i j k : Interpretation} {vars : List StateVariable} {ρ : Valuation}

theorem refl (i : Interpretation) : i.Unchanged i := ⟨fun _ => rfl, rfl, fun _ => rfl, rfl⟩

theorem trans (h : i.Unchanged j) (h' : j.Unchanged k) : i.Unchanged k where
  find := fun x => (h'.find x).trans (h.find x)
  condition := h'.condition.trans h.condition
  reachability := fun n => (h'.reachability n).trans (h.reachability n)
  objects := h'.objects.trans h.objects

theorem mem_keys (h : i.Unchanged j) {x : StateVariable} :
    x ∈ j.state.env.keys ↔ x ∈ i.state.env.keys := by
  rw [← OrderedMap.find_isSome, ← OrderedMap.find_isSome, h.find x]

theorem of_simulates (h : i.Unchanged j) {w : World} (s : Simulates ρ vars i.state w) :
    Simulates ρ vars j.state w :=
  s.of_value fun x _ => by rw [ExecutionState.value, ExecutionState.value, h.find x]

theorem holds (h : i.Unchanged j) : j.state.Holds ρ ↔ i.state.Holds ρ :=
  ExecutionState.holds_congr h.condition

theorem addExpressionMapping (i : Interpretation) (node : Node) (value : Expr t) :
    i.Unchanged (i.resume (i.state.addExpressionMapping node value)) := by
  cases t <;> exact ⟨fun _ => rfl, rfl, fun _ => rfl, rfl⟩

end Interpretation.Unchanged

theorem ExecutionState.find_merge_self {s mergeState : ExecutionState}
    (same : ∀ x, mergeState.env.find x = s.env.find x) (x : StateVariable) :
    (s.merge mergeState).env.find x = s.env.find x := by
  have looked : mergeState.env.entries.dlookup x = s.env.find x := same x
  unfold merge mergeEnv
  dsimp only
  split
  · rw [OrderedMap.find_update _ _ mergeState.env.nodupKeys, looked]
    cases s.env.find x <;> rfl
  · rfl
  · rw [OrderedMap.find_update _ _ mergeState.env.nodupKeys, looked]
    cases s.env.find x <;> simp

/-- The condition of a `Mux` goes to a state of its own, which is merged without a change. -/
theorem Interpretation.Unchanged.merge {i t : Interpretation} {cond : Expr .boolean}
    (h : (i.resume (i.state.pushExecutionCondition cond)).Unchanged t) :
    i.Unchanged (t.resume (i.state.merge t.state)) where
  find := ExecutionState.find_merge_self h.find
  condition := rfl
  reachability := by
    intro n
    have same : t.state.nodeAnnotationMap.reachabilityMap.entries.dlookup n =
        i.state.nodeAnnotationMap.reachabilityMap.find n := h.reachability n
    refine (OrderedMap.find_insertAll _ _ n).trans ?_
    rw [same, Option.or_self]
  objects := h.objects

/-- A computation of the interpreter that reads and changes the state only. -/
def OnState {α : Type} (f : Interpretation → Option (α × Interpretation)) : Prop :=
  ∀ i k : Interpretation,
    f (k.resume i.state) = (f i).map fun r => (r.1, k.resume r.2.state)

namespace OnState

variable {α β : Type}

theorem pure (a : α) : OnState fun i => some (a, i) := fun _ _ => rfl

theorem bind {f : Interpretation → Option (α × Interpretation)}
    {g : α → Interpretation → Option (β × Interpretation)} (first : OnState f)
    (second : ∀ a, OnState (g a)) : OnState fun i => (f i).bind fun r => g r.1 r.2 := by
  intro i k
  dsimp only
  rw [first i k]
  cases f i with
  | none => rfl
  | some r => exact second r.1 r.2 k

theorem map {f : Interpretation → Option (α × Interpretation)} (h : OnState f) (g : α → β) :
    OnState fun i => (f i).bind fun r => some (g r.1, r.2) :=
  h.bind fun a => pure (g a)

end OnState

open ExpressionResolver in
/-- The interpreter reads and changes the state only where there is no table to apply. -/
theorem computeResult_onState (e : ProgramExpr Empty t) :
    OnState (computeResult SymbolicHandlers.none e) := by
  induction e with
  | lit value => exact .pure _
  | path node name t =>
    intro i k
    rw [computeResult, computeResult]
    cases found : i.state.env.find ⟨name, t⟩ with
    | none => simp [Interpretation.resume, found]
    | some r => simp [Interpretation.resume, found]
  | hit _ table | miss _ table | actionRun table => exact table.elim
  | lNot e ih | unary _ e ih => exact ih.map _
  | lAnd left right ihLeft ihRight | lOr left right ihLeft ihRight
  | equ left right ihLeft ihRight | binary _ left right ihLeft ihRight =>
    exact ihLeft.bind fun _ => ihRight.map _
  | neq left right ihLeft ihRight => exact ihLeft.bind fun l => ihRight.map fun r => Expr.lNot (.equ l r)
  | mux e0 e1 e2 ih0 ih1 ih2 =>
    have ifTrue : ∀ cond elseExpr, OnState fun i =>
        (computeResult SymbolicHandlers.none e1
          (i.resume (i.state.pushExecutionCondition cond))).bind fun r =>
            some (Expr.mux cond r.1 elseExpr, r.2.resume (i.state.merge r.2.state)) := by
      intro cond elseExpr i k
      dsimp only
      have branch := ih1 (i.resume (i.state.pushExecutionCondition cond)) k
      rw [show (k.resume i.state).resume ((k.resume i.state).state.pushExecutionCondition cond) =
        k.resume (i.resume (i.state.pushExecutionCondition cond)).state from rfl, branch]
      cases computeResult SymbolicHandlers.none e1 (i.resume (i.state.pushExecutionCondition cond)) <;>
        rfl
    exact ih0.bind fun cond => ih2.bind fun elseExpr => ifTrue cond elseExpr

open ExpressionResolver in
/-- The interpreter computes for an expression the value that it has. -/
theorem computeResult_none (e : ProgramExpr Empty t) {vars : List StateVariable}
    (closed : e.reads ⊆ vars) (i : Interpretation) (defined : vars ⊆ i.state.env.keys) :
    ∃ r i', computeResult SymbolicHandlers.none e i = some (r, i') ∧ i.Unchanged i' ∧
      ∀ ρ w, Simulates ρ vars i.state w → r.eval ρ = (e.eval Handlers.none w).1 := by
  induction e generalizing i with
  | lit value => exact ⟨.lit value, i, rfl, .refl i, fun _ _ _ => Expr.eval_lit value⟩
  | path node name t =>
    have known : (⟨name, t⟩ : StateVariable) ∈ vars := closed (List.mem_singleton.mpr rfl)
    obtain ⟨r, found⟩ := OrderedMap.exists_find_of_mem (defined known)
    refine ⟨r, i.resume (i.state.addExpressionMapping node r), ?_,
      .addExpressionMapping i node r, ?_⟩
    · rw [computeResult, found]
      rfl
    · intro ρ w simulates
      have value := simulates _ known
      rw [ExecutionState.value, found] at value
      exact Option.some.inj value
  | hit _ table | miss _ table | actionRun table => exact table.elim
  | lNot e ih | unary _ e ih =>
    obtain ⟨r, i', computed, unchanged, value⟩ := ih closed i defined
    refine ⟨_, i', by rw [computeResult, computed]; rfl, unchanged, fun ρ w simulates => ?_⟩
    simp [ProgramExpr.eval, value ρ w simulates]
  | lAnd left right ihLeft ihRight | lOr left right ihLeft ihRight
  | equ left right ihLeft ihRight | neq left right ihLeft ihRight
  | binary _ left right ihLeft ihRight =>
    obtain ⟨leftReads, rightReads⟩ := List.append_subset.mp closed
    obtain ⟨l, i₁, computed₁, unchanged₁, value₁⟩ := ihLeft leftReads i defined
    obtain ⟨r, i₂, computed₂, unchanged₂, value₂⟩ :=
      ihRight rightReads i₁ fun x hx => unchanged₁.mem_keys.mpr (defined hx)
    refine ⟨_, i₂, by simp [computeResult, computed₁, computed₂]; rfl,
      unchanged₁.trans unchanged₂, fun ρ w simulates => ?_⟩
    have valueLeft := value₁ ρ w simulates
    have valueRight := value₂ ρ (left.eval Handlers.none w).2
      ((unchanged₁.of_simulates simulates).of_env (env_eval left w))
    first
    | cases known : (left.eval Handlers.none w).1 <;>
        simp [ProgramExpr.eval, valueLeft, valueRight, known]
    | simp [ProgramExpr.eval, valueLeft, valueRight]
  | mux e0 e1 e2 ih0 ih1 ih2 =>
    obtain ⟨reads0, closed⟩ := List.append_subset.mp closed
    obtain ⟨reads1, reads2⟩ := List.append_subset.mp closed
    obtain ⟨cond, i₁, computed₁, unchanged₁, value₁⟩ := ih0 reads0 i defined
    have defined₁ : vars ⊆ i₁.state.env.keys := fun x hx => unchanged₁.mem_keys.mpr (defined hx)
    obtain ⟨elseExpr, i₂, computed₂, unchanged₂, value₂⟩ := ih2 reads2 i₁ defined₁
    have defined₂ : vars ⊆ i₂.state.env.keys := fun x hx => unchanged₂.mem_keys.mpr (defined₁ hx)
    obtain ⟨ifExpr, t, computed₃, unchanged₃, value₃⟩ :=
      ih1 reads1 (i₂.resume (i₂.state.pushExecutionCondition cond)) defined₂
    refine ⟨.mux cond ifExpr elseExpr, t.resume (i₂.state.merge t.state), ?_,
      (unchanged₁.trans unchanged₂).trans unchanged₃.merge, fun ρ w simulates => ?_⟩
    · simp [computeResult, computed₁, computed₂, computed₃]
    · have after := (unchanged₁.of_simulates simulates).of_env (env_eval e0 w)
      have valueIf := value₃ ρ (e0.eval Handlers.none w).2 (unchanged₂.of_simulates after)
      rw [Expr.eval_mux, value₁ ρ w simulates, value₂ ρ _ after, valueIf, ProgramExpr.eval]
      split <;> rfl

end Expressions

/-! ### Runs -/

/-- What the interpreter does from one state to another simulates a run, under every valuation that
makes the condition of the path true. -/
structure Simulation (vars : List StateVariable) (s s' : ExecutionState) (run : World → World) :
    Prop where
  keys : s.env.keys ⊆ s'.env.keys
  condition : s'.executionCondition = s.executionCondition
  values : ∀ ρ w, s.Holds ρ → Simulates ρ vars s w → Simulates ρ vars s' (run w)

namespace Simulation

variable {vars : List StateVariable} {s s' s'' t e : ExecutionState} {run run' : World → World}

theorem trans (h : Simulation vars s s' run) (h' : Simulation vars s' s'' run') :
    Simulation vars s s'' fun w => run' (run w) where
  keys := List.Subset.trans h.keys h'.keys
  condition := h'.condition.trans h.condition
  values := by
    intro ρ w holds simulates
    have holds' := (ExecutionState.holds_congr h.condition).mpr holds
    exact h'.values ρ (run w) holds' (h.values ρ w holds simulates)

theorem of_unchanged {i i' : Interpretation} (h : i.Unchanged i')
    (same : ∀ w, (run w).env = w.env) : Simulation vars i.state i'.state run where
  keys := fun _ hx => h.mem_keys.mpr hx
  condition := h.condition
  values := fun _ w _ simulates => (h.of_simulates simulates).of_env (same w)

theorem set {x : StateVariable} {value : Expr x.type} {v : World → x.type.Val}
    (evaluated : ∀ ρ w, Simulates ρ vars s w → value.eval ρ = v w) :
    Simulation vars s (s.set x value) fun w => w.set x (v w) where
  keys := fun _ hy => OrderedMap.mem_keys_set.mpr (.inl hy)
  condition := rfl
  values := fun ρ w _ simulates => simulates.set (evaluated ρ w simulates)

/-- One state runs a branch under the condition, another one the alternative, and the latter takes
the values of the former where the condition holds. -/
theorem branch {cond : Expr .boolean} {test : World → Bool} {f g : World → World}
    (defined : vars ⊆ s.env.keys)
    (evaluated : ∀ ρ w, Simulates ρ vars s w → cond.eval ρ = test w)
    (ifTrue : Simulation vars (s.pushExecutionCondition cond) t f)
    (ifFalse : Simulation vars s e g) :
    Simulation vars s (e.merge t) fun w => if test w then f w else g w where
  keys := by
    rw [ExecutionState.keys_merge]
    exact ifFalse.keys
  condition := ifFalse.condition
  values := by
    intro ρ w holds simulates
    have known := evaluated ρ w simulates
    have definedT : vars ⊆ t.env.keys := List.Subset.trans defined ifTrue.keys
    have definedE : vars ⊆ e.env.keys := List.Subset.trans defined ifFalse.keys
    have holdsT := (ExecutionState.holds_congr (ρ := ρ) ifTrue.condition).trans
      ExecutionState.holds_push
    cases tested : test w with
    | true =>
      have pushed := ExecutionState.holds_push.mpr ⟨holds, known.trans tested⟩
      have simulatesT := ifTrue.values ρ w pushed simulates
      exact simulatesT.merge_of_true definedE (holdsT.mpr ⟨holds, known.trans tested⟩)
    | false =>
      have simulatesE := ifFalse.values ρ w holds simulates
      have fails : ¬t.Holds ρ := fun h => by simp [known, tested] at holdsT; exact holdsT h
      exact simulatesE.merge_of_false definedT (Bool.eq_false_iff.mpr fails)

end Simulation

end Flay
