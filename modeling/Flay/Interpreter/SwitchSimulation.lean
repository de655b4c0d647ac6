import Flay.Interpreter.Reachability
import Flay.Interpreter.Stepper

/-! The loop of a switch statement over its cases simulates the choice of the block to run. -/

namespace Flay

mutual

/-- The nodes of a statement that the reachability map may have. -/
def Statement.nodes {τ α : Type} : Statement τ α → List Node
  | .empty => []
  | .assignment _ _ => []
  | .declaration _ _ => []
  | .block components => nodesAll components
  | .ifStatement node _ ifTrue ifFalse => node :: (ifTrue.nodes ++ nodesOption ifFalse)
  | .switchStatement _ cases => nodesCases cases
  | .apply _ => []
  | .call _ => []

def nodesAll {τ α : Type} : List (Statement τ α) → List Node
  | [] => []
  | s :: l => s.nodes ++ nodesAll l

def nodesOption {τ α : Type} : Option (Statement τ α) → List Node
  | none => []
  | some s => s.nodes

def nodesCases {τ α : Type} : List (SwitchCase τ α) → List Node
  | [] => []
  | .mk node _ body :: cases => node :: (nodesBody body ++ nodesCases cases)

def nodesBody {τ α : Type} : Option (List (Statement τ α)) → List Node
  | none => []
  | some body => nodesAll body

end

section Cases

variable {τ α : Type} {t : Ty}

/-- The cases of a switch over the type: each label but the last is a constant of the type, no two
of them are equal, and the last one may be `default`, with a statement. -/
inductive SwitchLabels (t : Ty) : List (SwitchCase τ α) → Prop
  | nil : SwitchLabels t []
  | default (node : Node) (body : List (Statement τ α)) :
      SwitchLabels t [.mk node .default (some body)]
  | cons {node : Node} {label : SwitchLabel} {body : Option (List (Statement τ α))}
      {cases : List (SwitchCase τ α)} {v : t.Val} (constant : label.literal t = some v)
      (distinct : ∀ c ∈ cases, c.label.literal t ≠ some v) (rest : SwitchLabels t cases) :
      SwitchLabels t (.mk node label body :: cases)

theorem ne_default_of_literal {label : SwitchLabel} {v : t.Val} (h : label.literal t = some v) :
    label ≠ .default := by
  rintro rfl
  cases t <;> cases h

theorem SwitchLabels.of_constant {node : Node} {label : SwitchLabel}
    {body : Option (List (Statement τ α))} {cases : List (SwitchCase τ α)} {v : t.Val}
    (h : SwitchLabels t (.mk node label body :: cases)) (constant : label.literal t = some v) :
    SwitchLabels t cases ∧ ∀ c ∈ cases, c.label.literal t ≠ some v := by
  cases h with
  | default => exact absurd rfl (ne_default_of_literal constant)
  | cons constant' distinct rest =>
    cases constant.symm.trans constant'
    exact ⟨rest, distinct⟩

theorem SwitchLabels.of_none {node : Node} {label : SwitchLabel}
    {body : Option (List (Statement τ α))} {cases : List (SwitchCase τ α)}
    (h : SwitchLabels t (.mk node label body :: cases)) (last : label.literal t = none) :
    label = .default ∧ body.isSome ∧ cases = [] := by
  cases h with
  | default => exact ⟨rfl, rfl, rfl⟩
  | cons constant => cases last.symm.trans constant

/-- The nodes of the cases ahead of the default label. -/
def loopNodes : List (SwitchCase τ α) → List Node
  | [] => []
  | .mk node label body :: cases =>
    if label = .default then [] else node :: (nodesBody body ++ loopNodes cases)

/-- The nodes of the cases from the default label on. -/
def defaultNodes : List (SwitchCase τ α) → List Node
  | [] => []
  | .mk node label body :: cases =>
    if label = .default then node :: (nodesBody body ++ nodesCases cases) else defaultNodes cases

theorem nodesCases_eq (cases : List (SwitchCase τ α)) :
    nodesCases cases = loopNodes cases ++ defaultNodes cases := by
  induction cases with
  | nil => rfl
  | cons c cases ih =>
    obtain ⟨node, label, body⟩ := c
    by_cases last : label = .default
    · simp [nodesCases, loopNodes, defaultNodes, last]
    · simp [nodesCases, loopNodes, defaultNodes, last, ih]

/-- The block that runs for the value, if it is one ahead of the default label. `fallen` says that
a case before has the value as its label and no block. -/
def caseBlock (v : t.Val) : Bool → List (SwitchCase τ α) → Option (List (Statement τ α))
  | _, [] => none
  | fallen, .mk _ label body :: cases =>
    if label = .default then none
    else
      let hit := fallen || label.literal t == some v
      match body with
      | none => caseBlock v hit cases
      | some body => if hit then some body else caseBlock v false cases

/-- The block of the default label. -/
def defaultBlock : List (SwitchCase τ α) → Option (List (Statement τ α))
  | [] => none
  | .mk _ label body :: cases => if label = .default then body else defaultBlock cases

/-- The world once the case with the value as its label is taken, if none is fallen through yet. -/
def takeLabel (v : t.Val) (fallen : Bool) (cases : List (SwitchCase τ α)) (w : World) : World :=
  if fallen then w else takeCase v cases w

theorem env_takeLabel (v : t.Val) (fallen : Bool) (cases : List (SwitchCase τ α)) (w : World) :
    (takeLabel v fallen cases w).env = w.env := by
  rw [takeLabel, takeCase]
  split
  · rfl
  · split
    · rfl
    · split <;> rfl

theorem accepts_of_literal {label : SwitchLabel} {u : t.Val} (h : label.literal t = some u)
    (v : t.Val) : label.accepts v = decide (u = v) := by
  have named := ne_default_of_literal h
  simp [SwitchLabel.accepts, h, named, beq_eq_decide]

theorem caseBlock_cons {node : Node} {label : SwitchLabel} {body : Option (List (Statement τ α))}
    {cases : List (SwitchCase τ α)} {u : t.Val} (h : label.literal t = some u) (v : t.Val)
    (fallen : Bool) : caseBlock v fallen (.mk node label body :: cases) =
      match body with
      | none => caseBlock v (fallen || decide (u = v)) cases
      | some body => if fallen || decide (u = v) then some body else caseBlock v false cases := by
  cases body <;> simp [caseBlock, ne_default_of_literal h, h, beq_eq_decide]

/-- A value that is no label runs no block ahead of the default label. -/
theorem caseBlock_of_ne {v : t.Val} {cases : List (SwitchCase τ α)} (labels : SwitchLabels t cases)
    (h : ∀ c ∈ cases, c.label.literal t ≠ some v) : caseBlock v false cases = none := by
  induction labels with
  | nil => rfl
  | default => rfl
  | @cons node label body cases u constant _ _ ih =>
    have other : u ≠ v := by
      rintro rfl
      exact h _ List.mem_cons_self constant
    have rest := ih fun c mem => h c (List.mem_cons_of_mem _ mem)
    cases body <;> simp [caseBlock_cons constant, other, rest]

theorem takeLabel_cons {node : Node} {label : SwitchLabel} {body : Option (List (Statement τ α))}
    {cases : List (SwitchCase τ α)} {u : t.Val} (h : label.literal t = some u) (v : t.Val)
    (fallen : Bool) (w : World) : takeLabel v fallen (.mk node label body :: cases) w =
      takeLabel v (fallen || decide (u = v)) cases
        (if !fallen && decide (u = v) then w.emit (.taken node) else w) := by
  have accepted := accepts_of_literal h v
  have named := ne_default_of_literal h
  cases fallen <;> by_cases same : u = v <;>
    simp [takeLabel, takeCase_cons, SwitchCase.label, SwitchCase.node, accepted, named, same]

/-- A switch runs a block ahead of the default label, or else the block of that label. -/
theorem execCases_eq (h : Handlers τ α) {cases : List (SwitchCase τ α)}
    (labels : SwitchLabels t cases) (v : t.Val) (fallen : Bool) (w : World) :
    execCases h v fallen cases w =
      execBlock h ((caseBlock v fallen cases).or (defaultBlock cases))
        (takeLabel v fallen cases w) := by
  induction labels generalizing fallen w with
  | nil => cases fallen <;> simp [execCases, caseBlock, defaultBlock, execBlock, takeLabel, takeCase]
  | default node body =>
    cases fallen <;>
      simp [execCases, execCase, execBody, caseBlock, defaultBlock, execBlock, takeLabel,
        takeCase_cons, SwitchLabel.accepts, SwitchCase.label]
  | @cons node label body cases u constant _ _ ih =>
    have accepted := accepts_of_literal constant v
    have named := ne_default_of_literal constant
    rw [takeLabel_cons constant, caseBlock_cons constant, execCases, execCase, defaultBlock,
      if_neg named, if_neg named, accepted]
    cases body with
    | none => cases fallen <;> by_cases same : u = v <;> simp [execBody, ih, same]
    | some body =>
      cases fallen <;> by_cases same : u = v <;>
        simp [execBody, ih, same, execBlock, takeLabel]

end Cases

/-- The condition that one of the labels since the last block matches. -/
def labelCondition {t : Ty} (switchExpr : Expr t) (cond : Option (Expr .boolean)) (v : t.Val) :
    Expr .boolean :=
  (cond.map fun cond => Expr.lOr cond (.equ switchExpr (.lit v))).getD (.equ switchExpr (.lit v))

/-- The loop over the cases, from one interpretation to the next, with the states of the blocks.
`ran` says what the interpreter does with a block. -/
inductive CaseStates {t : Ty} (ran : ActionBody → Interpretation → Interpretation → Prop)
    (switchExpr : Expr t) : Option (Expr .boolean) → List (SwitchCase Empty Empty) →
      Interpretation → Interpretation → List ExecutionState → Prop
  | nil {cond : Option (Expr .boolean)} {i : Interpretation} :
      CaseStates ran switchExpr cond [] i i []
  | default {cond : Option (Expr .boolean)} {node : Node} {body : Option ActionBody}
      {cases : List (SwitchCase Empty Empty)} {i : Interpretation} :
      CaseStates ran switchExpr cond (.mk node .default body :: cases) i i []
  | fallThrough {cond : Option (Expr .boolean)} {node : Node} {label : SwitchLabel}
      {cases : List (SwitchCase Empty Empty)} {v : t.Val} {i i' : Interpretation}
      {states : List ExecutionState} (constant : label.literal t = some v)
      (rest : CaseStates ran switchExpr (some (labelCondition switchExpr cond v)) cases
        (i.addReachabilityMapping node (.equ switchExpr (.lit v))) i' states) :
      CaseStates ran switchExpr cond (.mk node label none :: cases) i i' states
  | block {cond : Option (Expr .boolean)} {node : Node} {label : SwitchLabel} {body : ActionBody}
      {cases : List (SwitchCase Empty Empty)} {v : t.Val} {i c i' : Interpretation}
      {states : List ExecutionState} (constant : label.literal t = some v)
      (body_ran : ran body
        ((i.addReachabilityMapping node (.equ switchExpr (.lit v))).resume
          ((i.addReachabilityMapping node (.equ switchExpr (.lit v))).state.pushExecutionCondition
            (SimplifyExpression.simplify (labelCondition switchExpr cond v)))) c)
      (rest : CaseStates ran switchExpr none cases
        (c.resume (i.addReachabilityMapping node (.equ switchExpr (.lit v))).state) i' states) :
      CaseStates ran switchExpr cond (.mk node label (some body) :: cases) i i'
        (c.state :: states)

section Loop

variable {t : Ty} {ran : ActionBody → Interpretation → Interpretation → Prop} {switchExpr : Expr t}
  {vars : List StateVariable} {ρ : Valuation} {cond : Option (Expr .boolean)}
  {cases : List (SwitchCase Empty Empty)} {i i' : Interpretation} {states : List ExecutionState}

/-- Whether one of the labels since the last block matches. -/
def matched (ρ : Valuation) (cond : Option (Expr .boolean)) : Bool :=
  cond.elim false fun cond => cond.eval ρ

theorem eval_labelCondition (cond : Option (Expr .boolean)) (u : t.Val) :
    (labelCondition switchExpr cond u).eval ρ =
      (matched ρ cond || decide (u = switchExpr.eval ρ)) := by
  cases cond <;> simp [labelCondition, matched, eq_comm]

/-- No label after one that has matched is the value. -/
def Passed (v : t.Val) (fallen : Bool) (cases : List (SwitchCase Empty Empty)) : Prop :=
  fallen = true → ∀ c ∈ cases, c.label.literal t ≠ some v

theorem Passed.cons {node : Node} {label : SwitchLabel} {body : Option ActionBody} {u v : t.Val}
    {fallen : Bool} (h : Passed v fallen (.mk node label body :: cases))
    (distinct : ∀ c ∈ cases, c.label.literal t ≠ some u) :
    Passed v (fallen || decide (u = v)) cases := by
  intro hit c mem
  rw [Bool.or_eq_true, decide_eq_true_eq] at hit
  obtain hit | rfl := hit
  · exact h hit c (List.mem_cons_of_mem _ mem)
  · exact distinct c mem

theorem CaseStates.state (h : CaseStates ran switchExpr cond cases i i' states) :
    i'.state.env = i.state.env ∧ i'.state.executionCondition = i.state.executionCondition := by
  induction h with
  | nil => exact ⟨rfl, rfl⟩
  | default => exact ⟨rfl, rfl⟩
  | fallThrough _ _ ih => exact ih
  | block _ _ _ ih => exact ih

theorem CaseStates.simulates_label (h : CaseStates ran switchExpr cond cases i i' states) {w : World}
    (simulates : Simulates ρ vars i.state w) (v : t.Val) (fallen : Bool) :
    Simulates ρ vars i'.state (takeLabel v fallen cases w) := by
  refine (simulates.of_value fun x _ => ?_).of_env (env_takeLabel v fallen cases w)
  rw [ExecutionState.value, ExecutionState.value, h.state.1]

/-- The states of the blocks, merged into one, leave the values of the block that runs, or else those
that are there. -/
theorem CaseStates.simulates_block (h : CaseStates ran switchExpr cond cases i i' states)
    (simulation : ∀ body i c, ran body i c →
      Simulation vars i.state c.state (execAll Handlers.none body))
    (labels : SwitchLabels t cases) (defined : vars ⊆ i.state.env.keys) (holds : i.state.Holds ρ)
    {w : World} (simulates : Simulates ρ vars i.state w)
    (passed : Passed (switchExpr.eval ρ) (matched ρ cond) cases) {d : ExecutionState} {w' : World}
    (definedD : vars ⊆ d.env.keys)
    (stays : caseBlock (switchExpr.eval ρ) (matched ρ cond) cases = none → Simulates ρ vars d w')
    (runs : ∀ body, caseBlock (switchExpr.eval ρ) (matched ρ cond) cases = some body →
      w' = execAll Handlers.none body (takeLabel (switchExpr.eval ρ) (matched ρ cond) cases w)) :
    Simulates ρ vars (states.foldl ExecutionState.merge d) w' := by
  induction h generalizing d w with
  | nil => exact stays rfl
  | default => exact stays rfl
  | @fallThrough cond node label cases u i i' states constant rest ih =>
    obtain ⟨labels, distinct⟩ := labels.of_constant constant
    have fallen : matched ρ (some (labelCondition switchExpr cond u)) =
        (matched ρ cond || decide (u = switchExpr.eval ρ)) := eval_labelCondition cond u
    rw [caseBlock_cons constant] at stays
    simp only [caseBlock_cons constant, takeLabel_cons constant] at runs
    exact ih labels defined holds (simulates.of_env (by split <;> rfl))
      (fallen ▸ passed.cons distinct) definedD (fallen ▸ stays) (fallen ▸ runs)
  | @block cond node label body cases u i c i' states constant body_ran rest ih =>
    obtain ⟨labels, distinct⟩ := labels.of_constant constant
    have block := simulation body _ c body_ran
    have definedC : vars ⊆ c.state.env.keys := List.Subset.trans defined block.keys
    have condition : (SimplifyExpression.simplify (labelCondition switchExpr cond u)).eval ρ =
        (matched ρ cond || decide (u = switchExpr.eval ρ)) :=
      (SimplifyExpression.eval_simplify _).trans (eval_labelCondition cond u)
    have defined' : vars ⊆ (d.merge c.state).env.keys := by rwa [ExecutionState.keys_merge]
    have unmatched : Passed (switchExpr.eval ρ) (matched ρ none) cases := by simp [Passed, matched]
    rw [caseBlock_cons constant] at stays
    simp only [caseBlock_cons constant, takeLabel_cons constant] at runs
    cases hit : (matched ρ cond || decide (u = switchExpr.eval ρ)) with
    | true =>
      -- The block runs, and no label after it is the value.
      have later : caseBlock (switchExpr.eval ρ) (matched ρ none) cases = none :=
        caseBlock_of_ne labels (passed.cons distinct hit)
      refine ih labels defined holds simulates unmatched defined' (fun _ => ?_) fun _ found => ?_
      · have pushed := ExecutionState.holds_push.mpr ⟨holds, condition.trans hit⟩
        have values := block.values ρ
          (if !matched ρ cond && decide (u = switchExpr.eval ρ) then w.emit (.taken node) else w)
          pushed (simulates.of_env (by split <;> rfl))
        have taken := values.merge_of_true definedD
          ((ExecutionState.holds_congr block.condition).mpr pushed)
        rw [runs body (by simp [hit]), hit, takeLabel, if_pos rfl]
        exact taken
      · rw [later] at found
        cases found
    | false =>
      have fails : ¬c.state.Holds ρ := by
        intro h
        have pushed := (ExecutionState.holds_congr block.condition).mp h
        have evaluated := condition.symm.trans (ExecutionState.holds_push.mp pushed).2
        rw [hit] at evaluated
        cases evaluated
      have kept : ∀ w, Simulates ρ vars d w → Simulates ρ vars (d.merge c.state) w :=
        fun _ h => h.merge_of_false definedC (Bool.eq_false_iff.mpr fails)
      simp only [hit, Bool.false_eq_true, if_false] at stays runs
      rw [Bool.or_eq_false_iff] at hit
      simp only [hit, Bool.not_false, Bool.and_false, Bool.false_eq_true, if_false] at runs
      exact ih labels defined holds simulates unmatched defined'
        (fun missing => kept w' (stays missing)) runs

theorem loopNodes_cons {node : Node} {label : SwitchLabel} {body : Option ActionBody} {u : t.Val}
    (h : label.literal t = some u) : loopNodes (.mk node label body :: cases) =
      [node] ++ (nodesBody body ++ loopNodes cases) := by
  rw [loopNodes, if_neg (ne_default_of_literal h)]
  rfl

/-- A label that is taken when none before it is. -/
theorem Interpretation.Records.emitLabel {i : Interpretation} {w : World} {node : Node} {u : t.Val}
    (recorded : i.Records ρ w) (before : Bool)
    (reaches : (Expr.equ switchExpr (.lit u)).eval ρ = true → i.Reaches ρ node) :
    i.Records ρ (if !before && decide (u = switchExpr.eval ρ) then w.emit (.taken node) else w) := by
  refine recorded.emit _ fun taken => reaches ?_
  rw [Bool.and_eq_true, decide_eq_true_eq] at taken
  simp [taken.2]

/-- The mapping of a label, with the nodes that stay without an address before those after it. -/
theorem Grown.addLabel {ledger : Node → Option Nat} {node : Node} {nodes : List Node}
    (keeps : Keeps ledger i)
    (fresh : ∀ n ∈ [node] ++ nodes, ledger n = i.state.address n)
    (disjoint : List.Disjoint [node] nodes) (switchExpr : Expr t) (u : t.Val) :
    ∃ ledger', Grown [node] ledger i ledger'
        (i.addReachabilityMapping node (.equ switchExpr (.lit u))) ∧
      (∀ n ∈ nodes,
        ledger' n = (i.addReachabilityMapping node (.equ switchExpr (.lit u))).state.address n) ∧
      ∀ ρ w (before : Bool), i.state.Holds ρ → i.Records ρ w →
        (i.addReachabilityMapping node (.equ switchExpr (.lit u))).Records ρ
          (if !before && decide (u = switchExpr.eval ρ) then w.emit (.taken node) else w) := by
  obtain ⟨ledger', grown, reaches⟩ := Grown.addReachabilityMapping keeps
    (fresh node List.mem_cons_self) (.equ switchExpr (.lit u))
  refine ⟨ledger', grown, ?_, fun ρ w before holds recorded => ?_⟩
  · exact grown.fresh (fun n mem => fresh n (List.mem_append_right _ mem)) disjoint
  · exact (grown.records recorded).emitLabel before (reaches ρ holds)

/-- The labels that are taken and the nodes of the block that runs are recorded, the latter in the
state of the block. -/
theorem CaseStates.records (h : CaseStates ran switchExpr cond cases i i' states)
    (recording : ∀ body i c, ran body i c →
      Recording vars (nodesAll body) i c (execAll Handlers.none body))
    (labels : SwitchLabels t cases) (defined : vars ⊆ i.state.env.keys)
    (nodup : (loopNodes cases).Nodup) {ledger : Node → Option Nat} (keeps : Keeps ledger i)
    (fresh : ∀ node ∈ loopNodes cases, ledger node = i.state.address node) :
    ∃ ledger', Grown (loopNodes cases) ledger i ledger' i' ∧
      (∀ s ∈ states, Agrees ledger' s ∧
        ∀ node ∉ loopNodes cases, s.address node = i.state.address node) ∧
      ∀ ρ w, i.state.Holds ρ → Simulates ρ vars i.state w → i.Records ρ w →
        i'.Records ρ (takeLabel (switchExpr.eval ρ) (matched ρ cond) cases w) ∧
        ∀ body, caseBlock (switchExpr.eval ρ) (matched ρ cond) cases = some body →
          ∃ s ∈ states, (i'.resume s).Records ρ
            (execAll Handlers.none body
              (takeLabel (switchExpr.eval ρ) (matched ρ cond) cases w)) := by
  induction h generalizing ledger with
  | @nil cond i =>
    refine ⟨ledger, Grown.of_address keeps (fun _ => rfl) rfl, by simp, fun ρ w _ _ recorded => ?_⟩
    refine ⟨?_, fun _ found => by cases found⟩
    cases hit : matched ρ cond <;> simpa [takeLabel, takeCase] using recorded
  | @default cond node body cases i =>
    refine ⟨ledger, (Grown.of_address keeps (fun _ => rfl) rfl).mono (List.nil_subset _), by simp,
      fun ρ w _ _ recorded => ?_⟩
    refine ⟨?_, fun _ found => by simp [caseBlock] at found⟩
    cases hit : matched ρ cond <;>
      simpa [takeLabel, takeCase_cons, SwitchLabel.accepts, SwitchCase.label] using recorded
  | @fallThrough cond node label cases u i i' states constant rest ih =>
    obtain ⟨labels, distinct⟩ := labels.of_constant constant
    rw [loopNodes_cons constant] at nodup fresh ⊢
    obtain ⟨_, nodup₂, disjoint⟩ := List.nodup_append'.mp nodup
    obtain ⟨ledger₁, grown₁, fresh₁, records₁⟩ := Grown.addLabel keeps fresh disjoint switchExpr u
    obtain ⟨ledger₂, grown₂, apart, records⟩ := ih labels defined nodup₂ grown₁.keeps fresh₁
    refine ⟨ledger₂, grown₁.trans grown₂, fun s mem => ⟨(apart s mem).1, fun node absent => ?_⟩,
      fun ρ w holds simulates recorded => ?_⟩
    · rw [List.mem_append, not_or] at absent
      exact ((apart s mem).2 node absent.2).trans (grown₁.frame node absent.1)
    · have fallen : matched ρ (some (labelCondition switchExpr cond u)) =
          (matched ρ cond || decide (u = switchExpr.eval ρ)) := eval_labelCondition cond u
      have labelled := records₁ ρ w (matched ρ cond) holds recorded
      have after := records ρ _ holds (simulates.of_env (by split <;> rfl)) labelled
      rw [caseBlock_cons constant, takeLabel_cons constant, ← fallen]
      exact after
  | @block cond node label body cases u i c i' states constant body_ran rest ih =>
    obtain ⟨labels, distinct⟩ := labels.of_constant constant
    rw [loopNodes_cons constant] at nodup fresh ⊢
    obtain ⟨_, nodup₂, disjoint⟩ := List.nodup_append'.mp nodup
    obtain ⟨nodup₃, nodup₄, disjoint₂⟩ := List.nodup_append'.mp nodup₂
    obtain ⟨ledger₁, grown₁, fresh₁, records₁⟩ := Grown.addLabel keeps fresh disjoint switchExpr u
    obtain ⟨ledger₂, grownC, recordsC⟩ := recording body _ c body_ran nodup₃ ledger₁
      ⟨grown₁.keeps.agrees, grown₁.keeps.bounded⟩
      fun node mem => fresh₁ node (List.mem_append_left _ mem)
    have grown₂ := grownC.fork grown₁.keeps
    have fresh₂ := grown₂.fresh (fun node mem => fresh₁ node (List.mem_append_right _ mem)) disjoint₂
    obtain ⟨ledger₃, grown₃, apart, records⟩ := ih labels defined nodup₄ grown₂.keeps fresh₂
    refine ⟨ledger₃, grown₁.trans (grown₂.trans grown₃), ?_, fun ρ w holds simulates recorded => ?_⟩
    · intro s mem
      obtain rfl | mem := List.mem_cons.mp mem
      · refine ⟨fun node a mapped => grown₃.extended node a (grownC.keeps.agrees node a mapped),
          fun node absent => ?_⟩
        simp only [List.mem_append, not_or] at absent
        exact (grownC.frame node absent.2.1).trans (grown₁.frame node absent.1)
      · refine ⟨(apart s mem).1, fun node absent => ?_⟩
        simp only [List.mem_append, not_or] at absent
        exact ((apart s mem).2 node absent.2.2).trans (grown₁.frame node absent.1)
    · have labelled := records₁ ρ w (matched ρ cond) holds recorded
      rw [caseBlock_cons constant, takeLabel_cons constant]
      cases hit : (matched ρ cond || decide (u = switchExpr.eval ρ)) with
      | true =>
        have condition : (SimplifyExpression.simplify (labelCondition switchExpr cond u)).eval ρ =
            true :=
          (SimplifyExpression.eval_simplify _).trans ((eval_labelCondition cond u).trans hit)
        rw [takeLabel, if_pos rfl]
        refine ⟨(grown₂.trans grown₃).records labelled, fun _ found => ?_⟩
        cases (Option.some.inj found : body = _)
        refine ⟨c.state, List.mem_cons_self, ?_⟩
        have recordedC := recordsC ρ _ (ExecutionState.holds_push.mpr ⟨holds, condition⟩)
          (simulates.of_env (by split <;> rfl)) labelled
        exact recordedC.mono (fun _ _ mapped => mapped) grown₃.weakened
      | false =>
        have after := records ρ w holds simulates (grown₂.records (grown₁.records recorded))
        have unmatched := (Bool.or_eq_false_iff.mp hit).2
        simp only [unmatched, Bool.and_false, Bool.false_eq_true, if_false]
        refine ⟨after.1, fun body found => ?_⟩
        obtain ⟨s, mem, recorded⟩ := after.2 body found
        exact ⟨s, List.mem_cons_of_mem _ mem, recorded⟩

end Loop

section Merge

variable {ledger : Node → Option Nat} {s : ExecutionState} {states : List ExecutionState}

theorem Agrees.foldl_merge (h : Agrees ledger s) (agrees : ∀ t ∈ states, Agrees ledger t) :
    Agrees ledger (states.foldl ExecutionState.merge s) := by
  induction states generalizing s with
  | nil => exact h
  | cons t states ih =>
    exact ih (h.merge (agrees t List.mem_cons_self)) fun t mem => agrees t (List.mem_cons_of_mem _ mem)

theorem address_foldl_merge_left {node : Node} {a : Nat} (mapped : s.address node = some a) :
    (states.foldl ExecutionState.merge s).address node = some a := by
  induction states generalizing s with
  | nil => exact mapped
  | cons t states ih => exact ih (ExecutionState.address_merge_left mapped)

theorem address_foldl_merge_right {t : ExecutionState} {node : Node} {a : Nat}
    (h : Agrees ledger s) (agrees : ∀ t ∈ states, Agrees ledger t) (mem : t ∈ states)
    (mapped : t.address node = some a) :
    (states.foldl ExecutionState.merge s).address node = some a := by
  induction states generalizing s with
  | nil => cases mem
  | cons t' states ih =>
    have here := agrees t' List.mem_cons_self
    rw [List.foldl_cons]
    obtain rfl | mem := List.mem_cons.mp mem
    · exact address_foldl_merge_left (ExecutionState.address_merge_right h here mapped)
    · exact ih (h.merge here) (fun t mem => agrees t (List.mem_cons_of_mem _ mem)) mem

theorem address_foldl_merge_of_same {node : Node}
    (same : ∀ t ∈ states, t.address node = s.address node) :
    (states.foldl ExecutionState.merge s).address node = s.address node := by
  induction states generalizing s with
  | nil => rfl
  | cons t states ih =>
    have here : (s.merge t).address node = s.address node := by
      rw [ExecutionState.address_merge, same t List.mem_cons_self, Option.or_self]
    refine (ih fun t mem => ?_).trans here
    rw [here, same t (List.mem_cons_of_mem _ mem)]

end Merge

section Switch

variable {t : Ty} {ran : ActionBody → Interpretation → Interpretation → Prop} {switchExpr : Expr t}
  {vars : List StateVariable} {cases : List (SwitchCase Empty Empty)} {i i' d : Interpretation}
  {states : List ExecutionState} {value : World → t.Val}

theorem Simulation.switch (h : CaseStates ran switchExpr none cases i i' states)
    (simulation : ∀ body i c, ran body i c →
      Simulation vars i.state c.state (execAll Handlers.none body))
    (labels : SwitchLabels t cases) (defined : vars ⊆ i.state.env.keys)
    (evaluated : ∀ ρ w, Simulates ρ vars i.state w → switchExpr.eval ρ = value w)
    (default : Simulation vars i'.state d.state (execBlock Handlers.none (defaultBlock cases))) :
    Simulation vars i.state (states.foldl ExecutionState.merge d.state)
      fun w => execCases Handlers.none (value w) false cases w where
  keys := by
    rw [ExecutionState.keys_foldl_merge, ← h.state.1]
    exact default.keys
  condition := (ExecutionState.executionCondition_foldl_merge states d.state).trans
    (default.condition.trans h.state.2)
  values := by
    intro ρ w holds simulates
    have known := evaluated ρ w simulates
    have definedD : vars ⊆ d.state.env.keys :=
      List.Subset.trans (h.state.1 ▸ defined) default.keys
    have defaulted := default.values ρ _ ((ExecutionState.holds_congr h.state.2).mpr holds)
      (h.simulates_label simulates (value w) false)
    refine h.simulates_block simulation labels defined holds simulates (by simp [Passed, matched])
      definedD ?_ ?_
    · intro missing
      rw [known] at missing
      rw [execCases_eq _ labels, show caseBlock (value w) false cases = none from missing]
      exact defaulted
    · intro body found
      rw [known] at found
      rw [known, execCases_eq _ labels, show caseBlock (value w) false cases = some body from found]
      rfl

theorem Recording.switch (h : CaseStates ran switchExpr none cases i i' states)
    (recording : ∀ body i c, ran body i c →
      Recording vars (nodesAll body) i c (execAll Handlers.none body))
    (labels : SwitchLabels t cases) (defined : vars ⊆ i.state.env.keys)
    (evaluated : ∀ ρ w, Simulates ρ vars i.state w → switchExpr.eval ρ = value w)
    (default : Recording vars (defaultNodes cases) i' d
      (execBlock Handlers.none (defaultBlock cases))) :
    Recording vars (nodesCases cases) i (d.resume (states.foldl ExecutionState.merge d.state))
      fun w => execCases Handlers.none (value w) false cases w := by
  intro nodup ledger keeps fresh
  rw [nodesCases_eq] at nodup fresh ⊢
  obtain ⟨nodup₁, nodup₂, disjoint⟩ := List.nodup_append'.mp nodup
  obtain ⟨ledger₁, grown₁, apart, records₁⟩ := h.records recording labels defined nodup₁ keeps
    fun node mem => fresh node (List.mem_append_left _ mem)
  have fresh₁ := grown₁.fresh (fun node mem => fresh node (List.mem_append_right _ mem)) disjoint
  obtain ⟨ledger₂, grown₂, records₂⟩ := default nodup₂ ledger₁ grown₁.keeps fresh₁
  have agrees : ∀ s ∈ states, Agrees ledger₂ s := fun s mem node a mapped =>
    grown₂.extended node a ((apart s mem).1 node a mapped)
  have grown := grown₁.trans grown₂
  refine ⟨ledger₂,
    { keeps := ⟨grown₂.keeps.agrees.foldl_merge agrees, grown₂.keeps.bounded⟩
      extended := grown.extended
      elsewhere := grown.elsewhere
      kept := fun node a mapped => address_foldl_merge_left (grown.kept node a mapped)
      frame := ?_
      weakened := grown.weakened }, ?_⟩
  · intro node absent
    have same := grown.frame node absent
    rw [List.mem_append, not_or] at absent
    have others : ∀ s ∈ states, s.address node = d.state.address node :=
      fun s mem => ((apart s mem).2 node absent.1).trans same.symm
    exact (address_foldl_merge_of_same others).trans same
  · intro ρ w holds simulates recorded
    have known := evaluated ρ w simulates
    obtain ⟨taken, ran⟩ := records₁ ρ w holds simulates recorded
    rw [known] at taken ran
    dsimp only
    rw [execCases_eq _ labels]
    cases found : caseBlock (value w) false cases with
    | some body =>
      obtain ⟨s, mem, recordedS⟩ := ran body found
      exact recordedS.mono
        (fun _ _ => address_foldl_merge_right grown₂.keeps.agrees agrees mem) grown₂.weakened
    | none =>
      have recordedD := records₂ ρ _ ((ExecutionState.holds_congr h.state.2).mpr holds)
        (h.simulates_label simulates (value w) false) taken
      exact recordedD.mono (fun _ _ => address_foldl_merge_left) (.refl _)

end Switch

end Flay
