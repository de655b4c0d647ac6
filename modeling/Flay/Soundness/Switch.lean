import Flay.Soundness.Interpretation

/-! The loop of a switch statement over its cases: the states of the blocks, what they record, and what it
says about the block that runs. -/

namespace Flay

open Container TableExecutor

section Switch

variable {τ α : Type} {t : Ty}

/-- Below a label that is taken, and otherwise, the block that a switch runs. -/
theorem caseBlock_or_defaultBlock {cases : List (SwitchCase τ α)} (labels : SwitchLabels t cases)
    (v : t.Val) (fallen : Bool) : (caseBlock v fallen cases).or (defaultBlock cases) =
      if fallen then landingBlock cases else selectBlock v cases := by
  induction labels generalizing fallen with
  | nil => cases fallen <;> rfl
  | default node body =>
    cases fallen <;>
      simp [caseBlock, defaultBlock, selectBlock_cons, SwitchLabel.accepts, SwitchCase.statement,
        SwitchCase.label]
  | @cons node label body cases u constant _ _ ih =>
    have accepted := accepts_of_literal constant v
    rw [caseBlock_cons constant, defaultBlock, if_neg (ne_default_of_literal constant),
      selectBlock_cons, landingBlock_cons]
    cases body with
    | none =>
      have rest := ih (fallen || decide (u = v))
      cases fallen <;> by_cases same : u = v <;>
        simp_all [SwitchCase.statement, SwitchCase.label]
    | some body =>
      have rest := ih false
      cases fallen <;> by_cases same : u = v <;>
        simp_all [SwitchCase.statement, SwitchCase.label]

theorem selectBlock_eq {cases : List (SwitchCase τ α)} (labels : SwitchLabels t cases) (v : t.Val) :
    selectBlock v cases = (caseBlock v false cases).or (defaultBlock cases) :=
  (caseBlock_or_defaultBlock labels v false).symm

/-- Each label but the default one is a constant of the type. -/
theorem SwitchLabels.literal {cases : List (SwitchCase τ α)} (labels : SwitchLabels t cases)
    {c : SwitchCase τ α} (mem : c ∈ cases) (named : c.label ≠ .default) :
    ∃ u, c.label.literal t = some u := by
  induction labels with
  | nil => cases mem
  | default =>
    obtain rfl := List.mem_singleton.mp mem
    exact absurd rfl named
  | cons constant _ _ ih =>
    obtain rfl | mem := List.mem_cons.mp mem
    · exact ⟨_, constant⟩
    · exact ih mem

variable (tableSites : τ → List Site)

/-- The sites of the cases ahead of the default label. -/
def loopSites : List (SwitchCase τ α) → List Site
  | [] => []
  | .mk node label body :: cases =>
    if label = .default then []
    else .node node :: (visitedBody tableSites body ++ loopSites cases)

/-- The sites of the cases from the default label on. -/
def defaultSites : List (SwitchCase τ α) → List Site
  | [] => []
  | .mk node label body :: cases =>
    if label = .default then
      .node node :: (visitedBody tableSites body ++ visitedCases tableSites cases)
    else defaultSites cases

theorem visitedCases_eq (cases : List (SwitchCase τ α)) :
    visitedCases tableSites cases = loopSites tableSites cases ++ defaultSites tableSites cases := by
  induction cases with
  | nil => rfl
  | cons c cases ih =>
    obtain ⟨node, label, body⟩ := c
    by_cases last : label = .default
    · simp [visitedCases, loopSites, defaultSites, last]
    · simp [visitedCases, loopSites, defaultSites, last, ih]

theorem loopSites_cons {node : Node} {label : SwitchLabel} {body : Option (List (Statement τ α))}
    {cases : List (SwitchCase τ α)} {u : t.Val} (constant : label.literal t = some u) :
    loopSites tableSites (.mk node label body :: cases) =
      [.node node] ++ (visitedBody tableSites body ++ loopSites tableSites cases) := by
  rw [loopSites, if_neg (ne_default_of_literal constant)]
  rfl

end Switch

theorem ExecutionState.mapping_foldl_merge (states : List ExecutionState) (s : ExecutionState)
    (site : Site) : (states.foldl ExecutionState.merge s).mapping site =
      (s :: states).findSome? fun s => s.mapping site := by
  induction states generalizing s with
  | nil => cases mapped : s.mapping site <;> simp [mapped]
  | cons t states ih =>
    rw [List.foldl_cons, ih, List.findSome?_cons, mapping_merge]
    cases mapped : s.mapping site <;> simp [List.findSome?_cons, mapped]

/-- At each site of the program, there is one mapping that the states have, if any. -/
def Compatible (own : Site → Prop) (states : List ExecutionState) : Prop :=
  ∀ site, own site → ∃ m, ∀ s ∈ states, s.mapping site = none ∨ s.mapping site = some m

/-- What one of the states has is in the merged one. -/
theorem Compatible.mapping_foldl_merge {own : Site → Prop} {s d : ExecutionState}
    {states : List ExecutionState} (h : Compatible own (d :: states)) (mem : s ∈ d :: states)
    {site : Site} (mine : own site) {m : Mapping} (mapped : s.mapping site = some m) :
    (states.foldl ExecutionState.merge d).mapping site = some m := by
  obtain ⟨m', only⟩ := h site mine
  rw [ExecutionState.mapping_foldl_merge]
  cases found : (d :: states).findSome? fun s => s.mapping site with
  | none =>
    have missing := List.findSome?_eq_none_iff.mp found s mem
    rw [mapped] at missing
    cases missing
  | some m'' =>
    obtain ⟨s', mem', mapped'⟩ := List.exists_of_findSome?_eq_some found
    have first : m = m' := by simpa [mapped] using only s mem
    have second : m'' = m' := by simpa [mapped'] using only s' mem'
    rw [first, second]

/-- One more state, which at each site has no other mapping than the others, or is the only one that has
one. -/
theorem Compatible.insert {own : Site → Prop} {s t : ExecutionState} {states : List ExecutionState}
    (h : Compatible own (s :: states))
    (fits : ∀ site, own site → (t.mapping site = none ∨ t.mapping site = s.mapping site) ∨
      ∀ s' ∈ s :: states, s'.mapping site = none) : Compatible own (s :: t :: states) := by
  intro site mine
  obtain (none | same) | only := fits site mine
  · obtain ⟨m, others⟩ := h site mine
    exact ⟨m, by simpa [none] using others⟩
  · obtain ⟨m, others⟩ := h site mine
    refine ⟨m, by simpa [same] using others⟩
  · cases mapped : t.mapping site with
    | none => exact ⟨.object 0, by simp_all⟩
    | some m => exact ⟨m, by simp_all⟩

/-- The state that goes on may have new mappings where the others have none. -/
theorem Compatible.replace {own : Site → Prop} {s t : ExecutionState} {states : List ExecutionState}
    (h : Compatible own (s :: states))
    (fits : ∀ site, own site → t.mapping site = s.mapping site ∨
      ∀ s' ∈ states, s'.mapping site = none) : Compatible own (t :: states) := by
  intro site mine
  obtain same | none := fits site mine
  · obtain ⟨m, others⟩ := h site mine
    exact ⟨m, by simpa [same] using others⟩
  · cases mapped : t.mapping site with
    | none => exact ⟨.object 0, by simp_all⟩
    | some m => exact ⟨m, by simp_all⟩

/-- Whatever has what the merged state records has what each of the states records. -/
theorem Compatible.carries {own : Site → Prop} {d f : Interpretation} {s : ExecutionState}
    {states : List ExecutionState} {sites : List Site} (h : Compatible own (d.state :: states))
    (mem : s ∈ d.state :: states) (mine : ∀ site ∈ sites, own site)
    (carries : (d.resume (states.foldl ExecutionState.merge d.state)).Carries sites f) :
    (d.resume s).Carries sites f := by
  intro site here e recorded
  obtain ⟨m, mapped, value⟩ := Option.bind_eq_some_iff.mp recorded
  refine carries site here e (Option.bind_eq_some_iff.mpr ⟨m, ?_, value⟩)
  exact h.mapping_foldl_merge mem (mine site here) mapped

section Loop

variable {ρ : Valuation} {own : Site → Prop} {vars : List StateVariable} {t : Ty}
  {switchExpr : Expr t} {cond : Option (Expr .boolean)}
  {cases : List (SwitchCase P4Table ActionCall)} {i i' : Interpretation}
  {states : List ExecutionState}

/-- What the loop over the cases ahead of the default label leaves: the states of the blocks, which merged
into another state leave the values of the block that runs, and which together with the state that goes
on record the sites. -/
structure CasesExplain (ρ : Valuation) (own : Site → Prop) (vars : List StateVariable) {t : Ty}
    (switchExpr : Expr t) (cond : Option (Expr .boolean))
    (cases : List (SwitchCase P4Table ActionCall)) (i i' : Interpretation)
    (states : List ExecutionState) : Prop where
  env : i'.state.env = i.state.env
  condition : i'.state.executionCondition = i.state.executionCondition
  values : ∀ (w w' : World) (d : ExecutionState), i.state.Holds ρ → Simulates ρ vars i.state w →
    vars ⊆ d.env.keys →
    (matched ρ cond = true → ∀ c ∈ cases, c.label.literal t ≠ some (switchExpr.eval ρ)) →
    (caseBlock (switchExpr.eval ρ) (matched ρ cond) cases = none → Simulates ρ vars d w') →
    (∀ body, caseBlock (switchExpr.eval ρ) (matched ρ cond) cases = some body →
      w' = execAll (behavior ρ).handlers body w) →
    Simulates ρ vars (states.foldl ExecutionState.merge d) w'
  records : ∀ owner, i.Owned owner → i.Unrecorded own (loopSites P4Table.actionSites cases) →
    ∃ owner', Keeping (fun site => own site ∧ site ∉ loopSites P4Table.actionSites cases)
        owner i owner' i' ∧
      Compatible own (i'.state :: states) ∧
      (∀ s ∈ i'.state :: states, (i'.resume s).Owned owner' ∧
        ∀ site, own site ∧ site ∉ loopSites P4Table.actionSites cases →
          s.mapping site = i.state.mapping site) ∧
      ∀ (f : Interpretation) (v : Verdicts) (w : World),
        (∀ s ∈ i'.state :: states,
          (i'.resume s).Carries (loopSites P4Table.actionSites cases) f) →
        f.Confirms ρ v → i.state.Holds ρ → Simulates ρ vars i.state w →
        (∀ c ∈ cases, ∀ u, c.label.literal t = some u →
          v.Decides c.node (decide (u = switchExpr.eval ρ))) ∧
        ∀ body, caseBlock (switchExpr.eval ρ) (matched ρ cond) cases = some body →
          TruthfulAll ρ v body w

/-- The end of the loop, which is the end of the cases or the default label. -/
theorem CasesExplain.done (noBlock : ∀ (v : t.Val) fallen, caseBlock v fallen cases = none)
    (noLabel : ∀ c ∈ cases, ∀ u : t.Val, c.label.literal t ≠ some u) (i : Interpretation) :
    CasesExplain ρ own vars switchExpr cond cases i i [] where
  env := rfl
  condition := rfl
  values _ _ _ _ _ _ _ stays _ := stays (noBlock _ _)
  records owner owned _ := by
    refine ⟨owner, .refl owned, fun site _ => ?_, fun s mem => ?_, fun f v w _ _ _ _ => ⟨?_, ?_⟩⟩
    · cases mapped : i.state.mapping site with
      | none => exact ⟨.object 0, by simp [mapped]⟩
      | some m => exact ⟨m, by simp [mapped]⟩
    · obtain rfl := List.mem_singleton.mp mem
      exact ⟨owned, fun _ _ => rfl⟩
    · exact fun c mem u constant => absurd constant (noLabel c mem u)
    · intro body found
      rw [noBlock] at found
      cases found

/-- The visit of a label. -/
theorem Explains.visitLabel (i : Interpretation) (node : Node) (switchExpr : Expr t) (u : t.Val) :
    Explains ρ own vars [.node node] i (i.addReachabilityMapping node (.equ switchExpr (.lit u))) id
      fun v _ => v.Decides node (decide (u = switchExpr.eval ρ)) :=
  .addReachabilityMapping node fun _ _ _ => by simp [eq_comm]

variable {node : Node} {label : SwitchLabel} {u : t.Val}

/-- The verdicts on the labels, the first of which is visited ahead of the others. -/
theorem decides_cons {v : Verdicts} {body : Option (List (Statement P4Table ActionCall))}
    (constant : label.literal t = some u)
    (first : v.Decides node (decide (u = switchExpr.eval ρ)))
    (others : ∀ c ∈ cases, ∀ u, c.label.literal t = some u →
      v.Decides c.node (decide (u = switchExpr.eval ρ))) :
    ∀ c ∈ (.mk node label body :: cases : List (SwitchCase P4Table ActionCall)),
      ∀ u, c.label.literal t = some u → v.Decides c.node (decide (u = switchExpr.eval ρ)) := by
  intro c mem u' found
  obtain rfl | mem := List.mem_cons.mp mem
  · obtain rfl : u = u' := Option.some.inj (constant.symm.trans found)
    exact first
  · exact others c mem u' found

/-- A case without a statement. -/
theorem CasesExplain.fallThrough (constant : label.literal t = some u)
    (distinct : ∀ c ∈ cases, c.label.literal t ≠ some u)
    (rest : CasesExplain ρ own vars switchExpr (some (labelCondition switchExpr cond u)) cases
      (i.addReachabilityMapping node (.equ switchExpr (.lit u))) i' states) :
    CasesExplain ρ own vars switchExpr cond (.mk node label none :: cases) i i' states := by
  have fallen : matched ρ (some (labelCondition switchExpr cond u)) =
      (matched ρ cond || decide (u = switchExpr.eval ρ)) := eval_labelCondition cond u
  refine ⟨rest.env, rest.condition, ?_, fun owner owned unrecorded => ?_⟩
  · intro w w' d holds simulates defined passed
    rw [caseBlock_cons constant, ← fallen]
    refine rest.values w w' d holds simulates defined fun hit c mem same => ?_
    rw [fallen, Bool.or_eq_true, decide_eq_true_eq] at hit
    obtain hit | rfl := hit
    · exact passed hit c (List.mem_cons_of_mem _ mem) same
    · exact distinct c mem same
  · rw [loopSites_cons _ constant, visitedBody, List.nil_append] at unrecorded ⊢
    obtain ⟨owner₁, keeps₁, told⟩ :=
      (Explains.visitLabel (ρ := ρ) i node switchExpr u).records owner owned unrecorded.left
    obtain ⟨owner₂, keeps₂, compatible, alike, told'⟩ :=
      rest.records owner₁ keeps₁.owned (unrecorded.right keeps₁.mapping)
    refine ⟨owner₂, keeps₁.append keeps₂, compatible, fun s mem => ⟨(alike s mem).1, ?_⟩, ?_⟩
    · rintro site ⟨mine, other⟩
      rw [List.mem_append, not_or] at other
      exact ((alike s mem).2 site ⟨mine, other.2⟩).trans (keeps₁.mapping site ⟨mine, other.1⟩)
    · intro f v w carries confirms holds simulates
      have first := keeps₂.carries keeps₁.owned (fun site mem =>
        ⟨unrecorded.left.own site mem, fun other => unrecorded.disjoint mem other⟩)
        (carries i'.state List.mem_cons_self)
      obtain ⟨labels, block⟩ := told' f v w
        (fun s mem site here => carries s mem site (List.mem_append_right _ here)) confirms holds
        simulates
      refine ⟨decides_cons constant (told f v w first confirms holds simulates) labels, ?_⟩
      rw [caseBlock_cons constant, ← fallen]
      exact block

/-- A case with a statement, which runs where one of the labels since the last one matches. -/
theorem CasesExplain.block {body : List (Statement P4Table ActionCall)} {c : Interpretation}
    (constant : label.literal t = some u)
    (labels : SwitchLabels t (.mk node label (some body) :: cases)) (defined : vars ⊆ i.state.env.keys)
    (ran : Explains ρ own vars (visitedAll P4Table.actionSites body)
      ((i.addReachabilityMapping node (.equ switchExpr (.lit u))).resume
        ((i.addReachabilityMapping node (.equ switchExpr (.lit u))).state.pushExecutionCondition
          (SimplifyExpression.simplify (labelCondition switchExpr cond u)))) c
      (fun w => execAll (behavior ρ).handlers body w) fun v w => TruthfulAll ρ v body w)
    (rest : CasesExplain ρ own vars switchExpr none cases
      (c.resume (i.addReachabilityMapping node (.equ switchExpr (.lit u))).state) i' states) :
    CasesExplain ρ own vars switchExpr cond (.mk node label (some body) :: cases) i i'
      (c.state :: states) := by
  obtain ⟨labels, distinct⟩ := labels.of_constant constant
  have condition : (SimplifyExpression.simplify (labelCondition switchExpr cond u)).eval ρ =
      (matched ρ cond || decide (u = switchExpr.eval ρ)) :=
    (SimplifyExpression.eval_simplify _).trans (eval_labelCondition cond u)
  refine ⟨rest.env, rest.condition, ?_, fun owner owned unrecorded => ?_⟩
  · intro w w' d holds simulates definedD passed stays runs
    rw [caseBlock_cons constant] at stays runs
    have definedC : vars ⊆ c.state.env.keys := List.Subset.trans defined ran.keys
    have defined' : vars ⊆ (d.merge c.state).env.keys := by rwa [ExecutionState.keys_merge]
    -- No label after one that matches is the value.
    have later : (matched ρ cond || decide (u = switchExpr.eval ρ)) = true →
        caseBlock (switchExpr.eval ρ) false cases = none := by
      intro hit
      refine caseBlock_of_ne labels fun other mem same => ?_
      rw [Bool.or_eq_true, decide_eq_true_eq] at hit
      obtain hit | rfl := hit
      · exact passed hit other (List.mem_cons_of_mem _ mem) same
      · exact distinct other mem same
    refine rest.values w w' (d.merge c.state) holds simulates defined' (fun hit => by cases hit)
      (fun missing => ?_) fun other found => ?_
    · cases hit : (matched ρ cond || decide (u = switchExpr.eval ρ)) with
      | true =>
        have pushed := ExecutionState.holds_push.mpr ⟨holds, condition.trans hit⟩
        rw [runs body (if_pos hit)]
        exact (ran.values w pushed simulates).merge_of_true definedD (ran.holds.mpr pushed)
      | false =>
        have fails : ¬c.state.Holds ρ := fun h => by
          have pushed := (ExecutionState.holds_push.mp (ran.holds.mp h)).2
          rw [condition, hit] at pushed
          cases pushed
        have unchanged := stays ((if_neg (by simp [hit])).trans missing)
        exact unchanged.merge_of_false definedC (Bool.eq_false_iff.mpr fails)
    · have missed : ¬(matched ρ cond || decide (u = switchExpr.eval ρ)) = true := fun hit => by
        have none : _ = none := later hit
        cases none.symm.trans found
      exact runs other ((if_neg missed).trans found)
  · rw [loopSites_cons _ constant, visitedBody] at unrecorded ⊢
    have visit : Explains ρ own vars [.node node] i
        (i.addReachabilityMapping node (.equ switchExpr (.lit u))) id
        fun v _ => v.Decides node (decide (u = switchExpr.eval ρ)) :=
      .visitLabel i node switchExpr u
    obtain ⟨owner₁, keeps₁, told⟩ := visit.records owner owned unrecorded.left
    have unrecorded₁ := unrecorded.right keeps₁.mapping
    generalize i.addReachabilityMapping node (.equ switchExpr (.lit u)) = j at *
    obtain ⟨owner₂, keepsC, toldC⟩ := ran.records owner₁ keeps₁.owned
      ⟨unrecorded₁.left.nodup, unrecorded₁.left.own, unrecorded₁.left.new⟩
    have forked := keepsC.fork keeps₁.owned
    obtain ⟨owner₃, keeps₃, compatible, alike, told'⟩ :=
      rest.records owner₂ forked.owned (unrecorded₁.right fun _ _ => rfl)
    have both := forked.append keeps₃
    refine ⟨owner₃, keeps₁.append both, ?_, ?_, ?_⟩
    · refine compatible.insert fun site mine => ?_
      by_cases here : site ∈ visitedAll P4Table.actionSites body
      · refine .inr fun s mem => ?_
        rw [(alike s mem).2 site ⟨mine, unrecorded₁.disjoint here⟩]
        exact unrecorded₁.left.new site here
      · refine .inl ?_
        rw [keepsC.mapping site ⟨mine, here⟩]
        by_cases later : site ∈ loopSites P4Table.actionSites cases
        · exact .inl (unrecorded₁.new site (List.mem_append_right _ later))
        · exact .inr ((alike _ List.mem_cons_self).2 site ⟨mine, later⟩).symm
    · have others : ∀ s ∈ i'.state :: states, (i'.resume s).Owned owner₃ ∧
          ∀ site, own site ∧ site ∉ [Site.node node] ++
            (visitedAll P4Table.actionSites body ++ loopSites P4Table.actionSites cases) →
            s.mapping site = i.state.mapping site := by
        refine fun s mem => ⟨(alike s mem).1, fun site kept => ?_⟩
        simp only [List.mem_append, not_or] at kept
        exact ((alike s mem).2 site ⟨kept.1, kept.2.2.2⟩).trans
          (keeps₁.mapping site ⟨kept.1, kept.2.1⟩)
      refine List.forall_mem_cons.mpr ⟨others _ List.mem_cons_self, List.forall_mem_cons.mpr
        ⟨⟨keeps₃.owned_resume keepsC.owned, fun site kept => ?_⟩,
          fun s mem => others s (List.mem_cons_of_mem _ mem)⟩⟩
      simp only [List.mem_append, not_or] at kept
      exact (keepsC.mapping site ⟨kept.1, kept.2.2.1⟩).trans
        (keeps₁.mapping site ⟨kept.1, kept.2.1⟩)
    · intro f v w carries confirms holds simulates
      have first := both.carries keeps₁.owned (fun site mem =>
        ⟨unrecorded.left.own site mem, fun other => unrecorded.disjoint mem other⟩)
        (carries i'.state List.mem_cons_self)
      have block : c.Carries (visitedAll P4Table.actionSites body) f := by
        intro site mem expr recorded
        have apart := unrecorded₁.disjoint mem
        have mine := unrecorded₁.left.own site mem
        have frozen := (keeps₃.frozen keepsC.owned).content keepsC.owned ⟨mine, apart⟩
        exact carries c.state (by simp) site
          (List.mem_append_right _ (List.mem_append_left _ mem)) expr (frozen.trans recorded)
      have later : ∀ s ∈ i'.state :: states,
          (i'.resume s).Carries (loopSites P4Table.actionSites cases) f := by
        refine fun s mem site here => carries s ?_ site
          (List.mem_append_right _ (List.mem_append_right _ here))
        obtain rfl | mem := List.mem_cons.mp mem
        · exact List.mem_cons_self
        · exact List.mem_cons_of_mem _ (List.mem_cons_of_mem _ mem)
      have holdsJ := visit.holds.mpr holds
      have simulatesJ := visit.values w holds simulates
      obtain ⟨decided, blocks⟩ := told' f v w later confirms holdsJ simulatesJ
      refine ⟨decides_cons constant (told f v w first confirms holds simulates) decided, ?_⟩
      intro other found
      rw [caseBlock_cons constant] at found
      cases hit : (matched ρ cond || decide (u = switchExpr.eval ρ)) with
      | true =>
        obtain rfl := Option.some.inj ((if_pos hit).symm.trans found)
        exact toldC f v w block confirms
          (ExecutionState.holds_push.mpr ⟨holdsJ, condition.trans hit⟩) simulatesJ
      | false => exact blocks other ((if_neg (Bool.eq_false_iff.mp hit)).symm.trans found)

/-- The default block runs below its label, for which nothing is recorded. -/
theorem Explains.default {body : List (Statement P4Table ActionCall)} {d : Interpretation}
    (ran : Explains ρ own vars (visitedAll P4Table.actionSites body) i d
      (fun w => execAll (behavior ρ).handlers body w) fun v w => TruthfulAll ρ v body w) (node : Node) :
    Explains ρ own vars (defaultSites P4Table.actionSites [.mk node .default (some body)]) i d
      (execBlock (behavior ρ).handlers (defaultBlock [.mk node .default (some body)]))
      fun v w => ∀ other, defaultBlock [.mk node .default (some body)] = some other →
        TruthfulAll ρ v other w := by
  have skipped : Explains ρ own vars [.node node] i i id fun _ _ => True := .refl i
  have last : Explains ρ own vars [] d d id fun _ _ => True := .refl d
  have run := skipped.trans (ran.trans last)
  refine run.imp (fun _ _ _ => rfl) fun v w _ _ truth other found => ?_
  obtain rfl : body = other := Option.some.inj found
  exact truth.2.1

/-- The interpretation after the blocks of a switch statement. -/
theorem Explains.switch {d : Interpretation} (labels : SwitchLabels t cases)
    (defined : vars ⊆ i.state.env.keys)
    (loop : CasesExplain ρ own vars switchExpr none cases i i' states)
    (default : Explains ρ own vars (defaultSites P4Table.actionSites cases) i' d
      (execBlock (behavior ρ).handlers (Flay.defaultBlock cases))
      fun v w => ∀ body, Flay.defaultBlock cases = some body → TruthfulAll ρ v body w) :
    Explains ρ own vars (visitedCases P4Table.actionSites cases) i
      (d.resume (states.foldl ExecutionState.merge d.state))
      (fun w => execCases (behavior ρ).handlers (switchExpr.eval ρ) false cases w)
      fun v w => ElimDeadCode.Consistent v.reachability (switchExpr.eval ρ) cases ∧
        ThroughoutCases (behavior ρ).handlers (Statement.Foretold ρ v)
          (selectBlock (switchExpr.eval ρ) cases) (takeCase (switchExpr.eval ρ) cases w) cases where
  keys := by
    rw [show (d.resume (states.foldl ExecutionState.merge d.state)).state.env.keys =
      d.state.env.keys from ExecutionState.keys_foldl_merge states d.state]
    rw [← loop.env]
    exact default.keys
  condition := (ExecutionState.executionCondition_foldl_merge states d.state).trans
    (default.condition.trans loop.condition)
  values w holds simulates := by
    have definedD : vars ⊆ d.state.env.keys :=
      List.Subset.trans (loop.env ▸ defined) default.keys
    have taken : Simulates ρ vars i.state (takeCase (switchExpr.eval ρ) cases w) :=
      simulates.of_env (env_takeLabel (switchExpr.eval ρ) false cases w)
    have takenJ : Simulates ρ vars i'.state (takeCase (switchExpr.eval ρ) cases w) :=
      taken.of_value fun x _ => by rw [ExecutionState.value, ExecutionState.value, loop.env]
    have holdsJ := (ExecutionState.holds_congr loop.condition).mpr holds
    have defaulted := default.values _ holdsJ takenJ
    rw [execCases_false, selectBlock_eq labels]
    refine loop.values _ _ _ holds taken definedD (fun hit => by cases hit) ?_ ?_
    · intro missing
      rw [show caseBlock (switchExpr.eval ρ) false cases = none from missing, Option.none_or]
      exact defaulted
    · intro body found
      rw [show caseBlock (switchExpr.eval ρ) false cases = some body from found]
      rfl
  records owner owned unrecorded := by
    rw [visitedCases_eq] at unrecorded ⊢
    obtain ⟨owner₁, keeps₁, compatible, alike, told⟩ := loop.records owner owned unrecorded.left
    have unrecorded₁ := unrecorded.right keeps₁.mapping
    obtain ⟨owner₂, keeps₂, toldD⟩ := default.records owner₁ keeps₁.owned unrecorded₁
    have apart : ∀ site ∈ loopSites P4Table.actionSites cases,
        own site ∧ site ∉ defaultSites P4Table.actionSites cases := fun site mem =>
      ⟨unrecorded.left.own site mem, fun other => unrecorded.disjoint mem other⟩
    have others : ∀ s ∈ states, (d.resume s).Owned owner₂ ∧
        ∀ site, own site ∧ site ∉ loopSites P4Table.actionSites cases →
          s.mapping site = i.state.mapping site := fun s mem =>
      ⟨keeps₂.owned_resume (alike s (List.mem_cons_of_mem _ mem)).1,
        (alike s (List.mem_cons_of_mem _ mem)).2⟩
    have compatibleD : Compatible own (d.state :: states) := by
      refine compatible.replace fun site mine => ?_
      by_cases here : site ∈ defaultSites P4Table.actionSites cases
      · refine .inr fun s mem => ?_
        rw [(others s mem).2 site ⟨mine, fun loop => unrecorded.disjoint loop here⟩]
        exact unrecorded.new site (List.mem_append_right _ here)
      · exact .inl (keeps₂.mapping site ⟨mine, here⟩)
    have both := keeps₁.append keeps₂
    refine ⟨owner₂, both.foldl_merge fun s mem => ⟨(others s mem).1, fun site kept =>
      (others s mem).2 site ⟨kept.1, fun loop => kept.2 (List.mem_append_left _ loop)⟩⟩, ?_⟩
    intro f v w carries confirms holds simulates
    have taken : Simulates ρ vars i.state (takeCase (switchExpr.eval ρ) cases w) :=
      simulates.of_env (env_takeLabel (switchExpr.eval ρ) false cases w)
    have takenJ : Simulates ρ vars i'.state (takeCase (switchExpr.eval ρ) cases w) :=
      taken.of_value fun x _ => by rw [ExecutionState.value, ExecutionState.value, loop.env]
    have holdsJ := (ExecutionState.holds_congr loop.condition).mpr holds
    have carriesD : ∀ s ∈ d.state :: states, (d.resume s).Carries
        (loopSites P4Table.actionSites cases ++ defaultSites P4Table.actionSites cases) f :=
      fun s mem => compatibleD.carries mem unrecorded.own carries
    have loopCarries : ∀ s ∈ i'.state :: states,
        (i'.resume s).Carries (loopSites P4Table.actionSites cases) f := by
      refine List.forall_mem_cons.mpr ⟨?_, fun s mem => ?_⟩
      · exact keeps₂.carries keeps₁.owned apart (carriesD d.state List.mem_cons_self)
      · exact (keeps₂.frozen (alike s (List.mem_cons_of_mem _ mem)).1).carries
          (alike s (List.mem_cons_of_mem _ mem)).1 apart (carriesD s (List.mem_cons_of_mem _ mem))
    obtain ⟨decided, blocks⟩ := told f v _ loopCarries confirms holds taken
    have defaulted := toldD f v _
      (fun site mem => carriesD d.state List.mem_cons_self site (List.mem_append_right _ mem))
      confirms holdsJ takenJ
    refine ⟨fun c mem named verdict known => ?_, throughoutCases_iff.mpr fun c _ body _ found => ?_⟩
    · obtain ⟨u, constant⟩ := labels.literal mem named
      rw [accepts_of_literal constant]
      exact decided c mem u constant verdict known
    · rw [selectBlock_eq labels, Option.or_eq_some_iff] at found
      obtain found | ⟨-, found⟩ := found
      · exact blocks body found
      · exact defaulted body found

end Loop

end Flay
