import Flay.Soundness.Sites
import Flay.Specialization.Specializer

/-! What a part of the interpreter's run says about the execution of a packet: the values that it leaves,
and the verdicts that its record leaves room for. -/

namespace Flay

open Container

/-- What the analysis tells of the nodes and of the expressions. -/
structure Verdicts where
  reachability : Node → Option Bool
  constants : Constants

/-- The verdict on a node, if there is one, is the truth value. -/
def Verdicts.Decides (v : Verdicts) (node : Node) (truth : Bool) : Prop :=
  ∀ verdict, v.reachability node = some verdict → truth = verdict

/-- The constant for an expression that is read, if there is one, is the value. -/
def Verdicts.Reads (v : Verdicts) (node : Node) : {t : Ty} → t.Val → Prop
  | .bits isSigned width, value => ∀ c, v.constants ⟨node, isSigned, width⟩ = some c → value = c
  | _, _ => True

/-- The verdicts are those of the conditions and values that are recorded. -/
structure Interpretation.Confirms (ρ : Valuation) (f : Interpretation) (v : Verdicts) : Prop where
  reachability : ∀ node cond, f.content (.node node) = some ⟨.boolean, cond⟩ →
    v.Decides node (cond.eval ρ)
  constants : ∀ e value c, f.content (.expression e) = some ⟨e.type, value⟩ →
    v.constants e = some c → value.eval ρ = c

/-- The later interpretation has what is recorded for the sites. -/
def Interpretation.Carries (sites : List Site) (i f : Interpretation) : Prop :=
  ∀ site ∈ sites, ∀ e, i.content site = some e → f.content site = some e

/-- The sites belong to the program, each of them occurs once, and none is recorded yet. -/
structure Interpretation.Unrecorded (own : Site → Prop) (sites : List Site) (i : Interpretation) :
    Prop where
  nodup : sites.Nodup
  own : ∀ site ∈ sites, own site
  new : ∀ site ∈ sites, i.state.mapping site = none

/-- What the interpreter does from one state to another, under the valuation: where the condition of
the path is true, it leaves the values of the run, and the verdicts that its record confirms are true
of the run. -/
structure Explains (ρ : Valuation) (own : Site → Prop) (vars : List StateVariable)
    (sites : List Site) (i i' : Interpretation) (run : World → World)
    (truth : Verdicts → World → Prop) : Prop where
  keys : i.state.env.keys ⊆ i'.state.env.keys
  condition : i'.state.executionCondition = i.state.executionCondition
  values : ∀ w, i.state.Holds ρ → Simulates ρ vars i.state w → Simulates ρ vars i'.state (run w)
  records : ∀ owner, i.Owned owner → i.Unrecorded own sites →
    ∃ owner', Keeping (fun site => own site ∧ site ∉ sites) owner i owner' i' ∧
      ∀ f v w, i'.Carries sites f → f.Confirms ρ v → i.state.Holds ρ →
        Simulates ρ vars i.state w → truth v w

namespace Interpretation.Unrecorded

variable {own : Site → Prop} {sites sites' : List Site} {i j : Interpretation}

theorem left (h : i.Unrecorded own (sites ++ sites')) : i.Unrecorded own sites where
  nodup := (List.nodup_append.mp h.nodup).1
  own site mem := h.own site (List.mem_append_left _ mem)
  new site mem := h.new site (List.mem_append_left _ mem)

theorem disjoint (h : i.Unrecorded own (sites ++ sites')) : List.Disjoint sites sites' :=
  (List.nodup_append'.mp h.nodup).2.2

/-- After the first sites, the others are not recorded yet. -/
theorem right (h : i.Unrecorded own (sites ++ sites'))
    (same : ∀ site, own site ∧ site ∉ sites → j.state.mapping site = i.state.mapping site) :
    j.Unrecorded own sites' where
  nodup := (List.nodup_append.mp h.nodup).2.1
  own site mem := h.own site (List.mem_append_right _ mem)
  new site mem := by
    have apart : site ∉ sites := fun first => h.disjoint first mem
    rw [same site ⟨h.own site (List.mem_append_right _ mem), apart⟩]
    exact h.new site (List.mem_append_right _ mem)

end Interpretation.Unrecorded

/-- The record of sites that a further part of the run keeps. -/
theorem Keeping.carries {kept : Site → Prop} {owner owner' : Nat → Node} {i j f : Interpretation}
    {sites sites' : List Site} (h : Keeping kept owner i owner' j) (owned : i.Owned owner)
    (keeps : ∀ site ∈ sites, kept site) (carries : j.Carries (sites ++ sites') f) :
    i.Carries sites f :=
  fun site mem e recorded => carries site (List.mem_append_left _ mem) e
    ((h.content owned (keeps site mem)).trans recorded)

/-- One part of the run after another, each with sites of its own. -/
theorem Keeping.append {own : Site → Prop} {sites sites' : List Site}
    {owner owner' owner'' : Nat → Node} {i j k : Interpretation}
    (h : Keeping (fun site => own site ∧ site ∉ sites) owner i owner' j)
    (h' : Keeping (fun site => own site ∧ site ∉ sites') owner' j owner'' k) :
    Keeping (fun site => own site ∧ site ∉ sites ++ sites') owner i owner'' k :=
  (h.mono fun _ kept => ⟨kept.1, fun mem => kept.2 (List.mem_append_left _ mem)⟩).trans
    (h'.mono fun _ kept => ⟨kept.1, fun mem => kept.2 (List.mem_append_right _ mem)⟩)

namespace Explains

variable {ρ : Valuation} {own : Site → Prop} {vars : List StateVariable}
  {sites sites' : List Site} {i j k t e : Interpretation} {run run' : World → World}
  {truth truth' : Verdicts → World → Prop}

theorem holds (h : Explains ρ own vars sites i j run truth) :
    j.state.Holds ρ ↔ i.state.Holds ρ :=
  ExecutionState.holds_congr h.condition

/-- Sites may be left out. -/
theorem refl (i : Interpretation) : Explains ρ own vars sites i i id fun _ _ => True where
  keys := List.Subset.refl _
  condition := rfl
  values _ _ simulates := simulates
  records owner owned _ := ⟨owner, .refl owned, fun _ _ _ _ _ _ _ => trivial⟩

/-- The run may be told otherwise, and less of it. -/
theorem imp (h : Explains ρ own vars sites i j run truth)
    (env : ∀ w, i.state.Holds ρ → Simulates ρ vars i.state w → (run' w).env = (run w).env)
    (less : ∀ v w, i.state.Holds ρ → Simulates ρ vars i.state w → truth v w → truth' v w) :
    Explains ρ own vars sites i j run' truth' where
  keys := h.keys
  condition := h.condition
  values w holds simulates := (h.values w holds simulates).of_env (env w holds simulates)
  records owner owned unrecorded := by
    obtain ⟨owner', keeps, told⟩ := h.records owner owned unrecorded
    refine ⟨owner', keeps, fun f v w carries confirms holds simulates => ?_⟩
    exact less v w holds simulates (told f v w carries confirms holds simulates)

theorem trans (h : Explains ρ own vars sites i j run truth)
    (h' : Explains ρ own vars sites' j k run' truth') :
    Explains ρ own vars (sites ++ sites') i k (fun w => run' (run w))
      fun v w => truth v w ∧ truth' v (run w) where
  keys := List.Subset.trans h.keys h'.keys
  condition := h'.condition.trans h.condition
  values w holds simulates := h'.values (run w) (h.holds.mpr holds) (h.values w holds simulates)
  records owner owned unrecorded := by
    obtain ⟨owner₁, keeps, told⟩ := h.records owner owned unrecorded.left
    obtain ⟨owner₂, keeps', told'⟩ :=
      h'.records owner₁ keeps.owned (unrecorded.right keeps.mapping)
    refine ⟨owner₂, keeps.append keeps', fun f v w carries confirms holds simulates => ?_⟩
    have first : j.Carries sites f := keeps'.carries keeps.owned (fun site mem =>
      ⟨unrecorded.left.own site mem, fun other => unrecorded.disjoint mem other⟩) carries
    refine ⟨told f v w first confirms holds simulates, ?_⟩
    exact told' f v (run w) (fun site mem => carries site (List.mem_append_right _ mem)) confirms
      (h.holds.mpr holds) (h.values w holds simulates)

/-- What touches none of the sites of the program, and no values. -/
theorem of_unchanged (unchanged : i.Unchanged j) (keeps : i.Keeps own j)
    (env : ∀ w, (run w).env = w.env) : Explains ρ own vars [] i j run fun _ _ => True where
  keys _ mem := unchanged.mem_keys.mpr mem
  condition := unchanged.condition
  values w _ simulates := (unchanged.of_simulates simulates).of_env (env w)
  records owner owned _ := by
    obtain ⟨owner', keeping⟩ := keeps owner owned
    exact ⟨owner', keeping.mono fun _ kept => kept.1, fun _ _ _ _ _ _ _ => trivial⟩

theorem set {x : StateVariable} {value : Expr x.type} {val : World → x.type.Val}
    (evaluated : ∀ w, i.state.Holds ρ → Simulates ρ vars i.state w → value.eval ρ = val w) :
    Explains ρ own vars [] i (i.resume (i.state.set x value)) (fun w => w.set x (val w))
      fun _ _ => True where
  keys _ mem := OrderedMap.mem_keys_set.mpr (.inl mem)
  condition := rfl
  values w holds simulates := simulates.set (evaluated w holds simulates)
  records owner owned _ := ⟨owner, .of_same owned rfl rfl, fun _ _ _ _ _ _ _ => trivial⟩

/-- An expression that is read. -/
theorem addExpressionMapping (node : Node) {t : Ty} {value : Expr t} {val : World → t.Val}
    (evaluated : ∀ w, i.state.Holds ρ → Simulates ρ vars i.state w → value.eval ρ = val w) :
    Explains ρ own vars (pathSites node t) i
      (i.resume (i.state.addExpressionMapping node value)) id
      fun v w => v.Reads node (val w) where
  keys _ mem := by cases t <;> exact mem
  condition := by cases t <;> rfl
  values _ _ simulates := by cases t <;> exact simulates
  records owner owned unrecorded := by
    refine ⟨owner, .addExpressionMapping owned node value fun site mem kept => kept.2 mem, ?_⟩
    intro f v w carries confirms holds simulates
    cases t with
    | boolean | string => trivial
    | bits isSigned width =>
      intro c known
      have here : Site.expression ⟨node, isSigned, width⟩ ∈ pathSites node (.bits isSigned width) :=
        List.mem_cons_self
      have unknown : i.state.recorded ⟨node, isSigned, width⟩ = none := by
        simpa [ExecutionState.mapping] using unrecorded.new _ here
      have recorded := ExecutionState.recorded_addExpressionMapping_self i.state node value
      rw [unknown, Option.getD_none] at recorded
      have content : f.content (.expression ⟨node, isSigned, width⟩) =
          some ⟨.bits isSigned width, value⟩ := by
        refine carries _ here _ ?_
        simp [Interpretation.content, ExecutionState.mapping, Interpretation.resume, recorded]
      rw [← evaluated w holds simulates]
      exact confirms.constants _ _ c content known

/-- A node that is reached where the condition holds. -/
theorem addReachabilityMapping (node : Node) {cond : Expr .boolean} {test : World → Bool}
    (evaluated : ∀ w, i.state.Holds ρ → Simulates ρ vars i.state w → cond.eval ρ = test w) :
    Explains ρ own vars [.node node] i (i.addReachabilityMapping node cond) id
      fun v w => v.Decides node (test w) where
  keys _ mem := mem
  condition := rfl
  values _ _ simulates := simulates
  records owner owned unrecorded := by
    have visited : ∃ owner', Keeping (fun site => own site ∧ site ∉ [Site.node node]) owner i owner'
        (i.addReachabilityMapping node cond) :=
      Keeping.exists_addReachabilityMapping owned node cond fun kept => kept.2 List.mem_cons_self
    obtain ⟨owner', keeps⟩ := visited
    refine ⟨owner', keeps, fun f v w carries confirms holds simulates => ?_⟩
    have unmapped : i.state.address node = none := by
      simpa [ExecutionState.mapping] using unrecorded.new _ List.mem_cons_self
    have missing : i.state.nodeAnnotationMap.reachabilityMap.find node = none := unmapped
    have content : f.content (.node node) =
        some ⟨.boolean, .lAnd i.state.getExecutionCondition cond⟩ := by
      refine carries _ List.mem_cons_self _ ?_
      simp [Interpretation.content, ExecutionState.mapping, ExecutionState.address,
        Interpretation.addReachabilityMapping, NodeAnnotationMap.initializeReachabilityMapping,
        missing, OrderedMap.find_emplace_self]
    have decided := confirms.reachability node _ content
    rw [Expr.eval_lAnd, holds, Bool.true_and, evaluated w holds simulates] at decided
    exact decided

/-- One state runs a branch under the condition, another one the alternative. -/
theorem branch {cond : Expr .boolean} {test : World → Bool} {f g : World → World}
    {ifTrue ifFalse : Verdicts → World → Prop} (defined : vars ⊆ i.state.env.keys)
    (evaluated : ∀ w, i.state.Holds ρ → Simulates ρ vars i.state w → cond.eval ρ = test w)
    (taken : Explains ρ own vars sites (i.resume (i.state.pushExecutionCondition cond)) t f ifTrue)
    (skipped : Explains ρ own vars sites' (t.resume i.state) e g ifFalse) :
    Explains ρ own vars (sites ++ sites') i (e.resume (e.state.merge t.state))
      (fun w => if test w then f w else g w)
      fun v w => if test w then ifTrue v w else ifFalse v w where
  keys := by
    have merged : (e.resume (e.state.merge t.state)).state.env.keys = e.state.env.keys :=
      ExecutionState.keys_merge e.state t.state
    rw [merged]
    exact skipped.keys
  condition := skipped.condition
  values w holds simulates := by
    have definedT : vars ⊆ t.state.env.keys := List.Subset.trans defined taken.keys
    have definedE : vars ⊆ e.state.env.keys := List.Subset.trans defined skipped.keys
    have known := evaluated w holds simulates
    cases tested : test w with
    | true =>
      have pushed := ExecutionState.holds_push.mpr ⟨holds, known.trans tested⟩
      exact (taken.values w pushed simulates).merge_of_true definedE (taken.holds.mpr pushed)
    | false =>
      have fails : ¬t.state.Holds ρ := fun h => by
        have pushed := (ExecutionState.holds_push.mp (taken.holds.mp h)).2
        rw [known, tested] at pushed
        cases pushed
      exact (skipped.values w holds simulates).merge_of_false definedT (Bool.eq_false_iff.mpr fails)
  records owner owned unrecorded := by
    have unrecordedT : (i.resume (i.state.pushExecutionCondition cond)).Unrecorded own sites :=
      ⟨unrecorded.left.nodup, unrecorded.left.own, unrecorded.left.new⟩
    obtain ⟨owner₁, keepsT, toldT⟩ := taken.records owner owned unrecordedT
    have forked := keepsT.fork owned
    obtain ⟨owner₂, keepsE, toldE⟩ := skipped.records owner₁ forked.owned
      (unrecorded.right fun _ _ => rfl)
    have merged := (forked.append keepsE).merge (keepsE.owned_resume keepsT.owned)
      fun site kept => .inr (keepsT.mapping site
        ⟨kept.1, fun mem => kept.2 (List.mem_append_left _ mem)⟩)
    refine ⟨owner₂, merged, fun final v w carries confirms holds simulates => ?_⟩
    have known := evaluated w holds simulates
    -- A site of one branch is mapped by the state of that branch alone.
    have first : t.Carries sites final := by
      intro site mem expr recorded
      have other : site ∉ sites' := unrecorded.disjoint mem
      have mine : own site := unrecorded.left.own site mem
      refine carries site (List.mem_append_left _ mem) expr ?_
      have mapping : (e.state.merge t.state).mapping site = t.state.mapping site := by
        rw [ExecutionState.mapping_merge, keepsE.mapping site ⟨mine, other⟩,
          show (t.resume i.state).state.mapping site = none from unrecorded.left.new site mem,
          Option.none_or]
      have later : (e.resume t.state).content site = t.content site :=
        (keepsE.frozen keepsT.owned).content keepsT.owned ⟨mine, other⟩
      rw [← recorded, ← later]
      simp only [Interpretation.content, Interpretation.resume, mapping]
    have second : e.Carries sites' final := by
      intro site mem expr recorded
      have other : site ∉ sites := fun h => unrecorded.disjoint h mem
      have mine : own site := unrecorded.own site (List.mem_append_right _ mem)
      refine carries site (List.mem_append_right _ mem) expr ?_
      have mapping : (e.state.merge t.state).mapping site = e.state.mapping site := by
        rw [ExecutionState.mapping_merge, keepsT.mapping site ⟨mine, other⟩]
        have new : i.state.mapping site = none :=
          unrecorded.new site (List.mem_append_right _ mem)
        rw [show (i.resume (i.state.pushExecutionCondition cond)).state.mapping site = none from new,
          Option.or_none]
      rw [← recorded]
      simp only [Interpretation.content, Interpretation.resume, mapping]
    split
    · rename_i tested
      exact toldT final v w first confirms
        (ExecutionState.holds_push.mpr ⟨holds, known.trans tested⟩) simulates
    · exact toldE final v w second confirms holds simulates

end Explains

end Flay
