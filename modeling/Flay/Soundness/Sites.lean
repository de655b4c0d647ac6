import Flay.Specialization.ReportedConstants

/-! Where the interpreter leaves its annotations, and what a part of its run leaves of those that
other parts have made. -/

namespace Flay

open Container

/-- A node that the interpreter reaches, or an expression of type `Type_Bits` that it reads. -/
inductive Site
  | node (node : Node)
  | expression (e : ExpressionNode)
deriving DecidableEq

/-- What a path expression maps. -/
def pathSites (node : Node) : Ty → List Site
  | .bits isSigned width => [.expression ⟨node, isSigned, width⟩]
  | _ => []

section Sites

variable {τ α : Type} (tableSites : τ → List Site)

/-- The sites of an expression in the order of the interpreter, with those of a table at each of its
applications. -/
def ProgramExpr.visited : {t : Ty} → ProgramExpr τ t → List Site
  | _, .lit _ => []
  | _, .path node _ t => pathSites node t
  | _, .hit node table => tableSites table ++ [.node node]
  | _, .miss node table => tableSites table ++ [.node node]
  | _, .actionRun table => tableSites table
  | _, .lNot e => e.visited
  | _, .lAnd left right => left.visited ++ right.visited
  | _, .lOr left right => left.visited ++ right.visited
  | _, .equ left right => left.visited ++ right.visited
  | _, .neq left right => left.visited ++ right.visited
  | _, .unary _ e => e.visited
  | _, .binary _ left right => left.visited ++ right.visited
  | _, .mux e0 e1 e2 => e0.visited ++ (e2.visited ++ e1.visited)

mutual

/-- The sites of a statement, apart from those of the actions that it calls. -/
def Statement.visited : Statement τ α → List Site
  | .empty => []
  | .assignment _ right => right.visited tableSites
  | .declaration _ initializer => initializer.visited tableSites
  | .block components => visitedAll components
  | .ifStatement node condition ifTrue ifFalse =>
    condition.visited tableSites ++ (.node node :: (ifTrue.visited ++ visitedOption ifFalse))
  | .switchStatement expression cases => expression.visited tableSites ++ visitedCases cases
  | .apply table => tableSites table
  | .call _ => []

def visitedAll : List (Statement τ α) → List Site
  | [] => []
  | s :: l => s.visited ++ visitedAll l

def visitedOption : Option (Statement τ α) → List Site
  | none => []
  | some s => s.visited

def visitedCases : List (SwitchCase τ α) → List Site
  | [] => []
  | .mk node _ body :: cases => .node node :: (visitedBody body ++ visitedCases cases)

def visitedBody : Option (List (Statement τ α)) → List Site
  | none => []
  | some body => visitedAll body

end

end Sites

/-- The object of a node, or the value of an expression. -/
inductive Mapping
  | object (address : Nat)
  | value (value : Sigma Expr)

namespace ExecutionState

/-- What the map of the state has for a site. -/
def mapping (s : ExecutionState) : Site → Option Mapping
  | .node node => (s.address node).map .object
  | .expression e => (s.recorded e).map fun value => .value ⟨e.type, value⟩

theorem mapping_merge (s mergeState : ExecutionState) (site : Site) :
    (s.merge mergeState).mapping site = (s.mapping site).or (mergeState.mapping site) := by
  cases site with
  | node node => rw [mapping, address_merge, Option.map_or]; rfl
  | expression e => rw [mapping, recorded_merge, Option.map_or]; rfl

theorem mapping_congr {s s' : ExecutionState} (same : s'.nodeAnnotationMap = s.nodeAnnotationMap)
    (site : Site) : s'.mapping site = s.mapping site := by
  cases site <;> simp only [mapping, address, recorded, same]

theorem mapping_addExpressionMapping (s : ExecutionState) (node : Node) {t : Ty} (value : Expr t)
    {site : Site} (other : site ∉ pathSites node t) :
    (s.addExpressionMapping node value).mapping site = s.mapping site := by
  cases t with
  | boolean | string => rfl
  | bits isSigned width =>
    cases site with
    | node => rfl
    | expression e =>
      have different : e ≠ ⟨node, isSigned, width⟩ := by simpa [pathSites] using other
      have looked := OrderedMap.find_emplace_ne s.nodeAnnotationMap.substitutionMap
        (⟨s.getExecutionCondition, value⟩ : SubstitutionExpression (.bits isSigned width)) different
      simp only [mapping, recorded, addExpressionMapping,
        NodeAnnotationMap.initializeExpressionMapping, looked]

theorem mapping_addReachabilityMapping (i : Interpretation) (node : Node) (cond : Expr .boolean)
    {site : Site} (other : site ≠ .node node) :
    (i.addReachabilityMapping node cond).state.mapping site = i.state.mapping site := by
  cases site with
  | expression e => rw [mapping, recorded_addReachabilityMapping]; rfl
  | node n =>
    have different : n ≠ node := fun same => other (congrArg Site.node same)
    obtain ⟨_, _, mapped⟩ | ⟨_, mapped⟩ :=
      i.state.nodeAnnotationMap.initializeReachabilityMapping_cases i.objects node
        (.lAnd i.state.getExecutionCondition cond)
    · simp [mapping, address, Interpretation.addReachabilityMapping, mapped]
    · simp [mapping, address, Interpretation.addReachabilityMapping, mapped,
        OrderedMap.find_emplace_ne _ _ different]

end ExecutionState

namespace Interpretation

/-- Each object that the state maps a node to belongs to the node. -/
def Owned (owner : Nat → Node) (i : Interpretation) : Prop :=
  AnnotationHeap.Owned i.objects.length owner i.state.nodeAnnotationMap

/-- The expression that is recorded for a site. -/
def content (i : Interpretation) (site : Site) : Option (Sigma Expr) :=
  (i.state.mapping site).bind fun mapping =>
    match mapping with
    | .object address => i.objects[address]?.map (Sigma.mk .boolean)
    | .value value => some value

end Interpretation

/-- What a part of the run leaves as it is: the sites that it keeps, in the state and in the objects.
The owners of the objects are the same ones, and there may be more objects. -/
structure Keeping (kept : Site → Prop) (owner : Nat → Node) (i : Interpretation)
    (owner' : Nat → Node) (i' : Interpretation) : Prop where
  owned : i'.Owned owner'
  grows : i.objects.length ≤ i'.objects.length
  owners : ∀ a < i.objects.length, owner' a = owner a
  objects : ∀ a < i.objects.length, kept (.node (owner a)) → i'.objects[a]? = i.objects[a]?
  mapping : ∀ site, kept site → i'.state.mapping site = i.state.mapping site

namespace Keeping

variable {kept kept' : Site → Prop} {owner owner' owner'' : Nat → Node} {i j k : Interpretation}

theorem of_same (owned : i.Owned owner) (objects : j.objects = i.objects)
    (map : j.state.nodeAnnotationMap = i.state.nodeAnnotationMap) :
    Keeping kept owner i owner j where
  owned := by
    unfold Interpretation.Owned
    rw [objects, map]
    exact owned
  grows := objects ▸ le_rfl
  owners _ _ := rfl
  objects _ _ _ := by rw [objects]
  mapping site _ := ExecutionState.mapping_congr map site

theorem refl (owned : i.Owned owner) : Keeping kept owner i owner i := of_same owned rfl rfl

theorem mono (h : Keeping kept owner i owner' j) (fewer : ∀ site, kept' site → kept site) :
    Keeping kept' owner i owner' j :=
  { h with
    objects := fun a inside keeps => h.objects a inside (fewer _ keeps)
    mapping := fun site keeps => h.mapping site (fewer _ keeps) }

theorem trans (h : Keeping kept owner i owner' j) (h' : Keeping kept owner' j owner'' k) :
    Keeping kept owner i owner'' k where
  owned := h'.owned
  grows := h.grows.trans h'.grows
  owners a inside := (h'.owners a (inside.trans_le h.grows)).trans (h.owners a inside)
  objects a inside keeps := by
    have keeps' : kept (.node (owner' a)) := (h.owners a inside).symm ▸ keeps
    exact (h'.objects a (inside.trans_le h.grows) keeps').trans (h.objects a inside keeps)
  mapping site keeps := (h'.mapping site keeps).trans (h.mapping site keeps)

/-- A state that was left aside still has its objects. -/
theorem owned_resume {s : ExecutionState} (h : Keeping kept owner i owner' j)
    (owned : (i.resume s).Owned owner) : (j.resume s).Owned owner' := by
  intro node a mapped
  obtain ⟨inside, same⟩ := owned node a mapped
  exact ⟨inside.trans_le h.grows, (h.owners a inside).trans same⟩

/-- A state that was left aside keeps its record, while the objects of others grow. -/
theorem frozen {s : ExecutionState} (h : Keeping kept owner i owner' j)
    (owned : (i.resume s).Owned owner) : Keeping kept owner (i.resume s) owner' (j.resume s) where
  owned := h.owned_resume owned
  grows := h.grows
  owners := h.owners
  objects := h.objects
  mapping _ _ := rfl

/-- The run of a state that is resumed elsewhere, seen from the state that goes on. -/
theorem fork {s : ExecutionState} (h : Keeping kept owner (i.resume s) owner' j)
    (owned : i.Owned owner) : Keeping kept owner i owner' (j.resume i.state) :=
  h.frozen (i := i.resume s) owned

/-- A state is merged that has no other mappings at the sites that are kept. -/
theorem merge {t : ExecutionState} (h : Keeping kept owner i owner' j)
    (owned : (j.resume t).Owned owner')
    (same : ∀ site, kept site →
      t.mapping site = none ∨ t.mapping site = i.state.mapping site) :
    Keeping kept owner i owner' (j.resume (j.state.merge t)) where
  owned := by
    intro node a mapped
    have merged : (j.state.address node).or (t.address node) = some a :=
      (ExecutionState.address_merge j.state t node).symm.trans mapped
    obtain mapped | ⟨-, mapped⟩ := Option.or_eq_some_iff.mp merged
    · exact h.owned node a mapped
    · exact owned node a mapped
  grows := h.grows
  owners := h.owners
  objects := h.objects
  mapping site keeps := by
    refine (ExecutionState.mapping_merge j.state t site).trans ?_
    rw [h.mapping site keeps]
    obtain none | same := same site keeps
    · rw [none, Option.or_none]
    · rw [same, Option.or_self]

/-- What is recorded for a site that is kept stays recorded. -/
theorem content (h : Keeping kept owner i owner' j) (owned : i.Owned owner) {site : Site}
    (keeps : kept site) : j.content site = i.content site := by
  unfold Interpretation.content
  rw [h.mapping site keeps]
  cases mapped : i.state.mapping site with
  | none => rfl
  | some m =>
    cases m with
    | value => rfl
    | object a =>
      cases site with
      | expression e => simp [ExecutionState.mapping] at mapped
      | node n =>
        have known : i.state.address n = some a := by simpa [ExecutionState.mapping] using mapped
        obtain ⟨inside, same⟩ := owned n a known
        simp only [Option.bind_some]
        rw [h.objects a inside (same ▸ keeps)]

theorem addExpressionMapping (owned : i.Owned owner) (node : Node) {t : Ty} (value : Expr t)
    (other : ∀ site ∈ pathSites node t, ¬kept site) :
    Keeping kept owner i owner (i.resume (i.state.addExpressionMapping node value)) where
  owned := by
    cases t <;> exact owned
  grows := le_rfl
  owners _ _ := rfl
  objects _ _ _ := rfl
  mapping site keeps :=
    ExecutionState.mapping_addExpressionMapping i.state node value fun mem => other site mem keeps

/-- The visit of a node gives it an object or goes to the object that it has. -/
theorem exists_addReachabilityMapping (owned : i.Owned owner) (node : Node) (cond : Expr .boolean)
    (other : ¬kept (.node node)) :
    ∃ owner', Keeping kept owner i owner' (i.addReachabilityMapping node cond) := by
  have elsewhere : ∀ site, kept site →
      (i.addReachabilityMapping node cond).state.mapping site = i.state.mapping site :=
    fun site keeps => ExecutionState.mapping_addReachabilityMapping i node cond
      fun same => other (same ▸ keeps)
  obtain ⟨address, found, mapped⟩ | ⟨missing, mapped⟩ :=
    i.state.nodeAnnotationMap.initializeReachabilityMapping_cases i.objects node
      (.lAnd i.state.getExecutionCondition cond)
  · have objects : (i.addReachabilityMapping node cond).objects = i.objects.modify address
        fun old => .lOr old (.lAnd i.state.getExecutionCondition cond) := congrArg Prod.snd mapped
    have length : (i.addReachabilityMapping node cond).objects.length = i.objects.length := by
      rw [objects, List.length_modify]
    have map : (i.addReachabilityMapping node cond).state.nodeAnnotationMap =
        (i.state.nodeAnnotationMap.initializeReachabilityMapping i.objects node
          (.lAnd i.state.getExecutionCondition cond)).1 := rfl
    refine ⟨owner, ?_, length.ge, fun _ _ => rfl, fun a inside keeps => ?_, elsewhere⟩
    · intro n a known
      rw [map, mapped] at known
      rw [length]
      exact owned n a known
    · have different : address ≠ a := by
        rintro rfl
        exact other ((owned node address found).2 ▸ keeps)
      simp [objects, different]
  · have objects : (i.addReachabilityMapping node cond).objects =
        i.objects ++ [.lAnd i.state.getExecutionCondition cond] := congrArg Prod.snd mapped
    have map : (i.addReachabilityMapping node cond).state.nodeAnnotationMap =
        (i.state.nodeAnnotationMap.initializeReachabilityMapping i.objects node
          (.lAnd i.state.getExecutionCondition cond)).1 := rfl
    refine ⟨Function.update owner i.objects.length node, ?_, ?_, fun a inside => ?_,
      fun a inside keeps => ?_, elsewhere⟩
    · intro n a known
      rw [map, mapped] at known
      rw [objects, List.length_append, List.length_singleton]
      by_cases same : n = node
      · subst same
        have new := (OrderedMap.find_emplace_self i.state.nodeAnnotationMap.reachabilityMap n
          i.objects.length).symm.trans known
        rw [missing, Option.getD_none, Option.some.injEq] at new
        subst new
        exact ⟨Nat.lt_succ_self _, Function.update_self ..⟩
      · have old := (OrderedMap.find_emplace_ne i.state.nodeAnnotationMap.reachabilityMap
          i.objects.length same).symm.trans known
        obtain ⟨inside, owns⟩ := owned n a old
        exact ⟨inside.trans (Nat.lt_succ_self _), by rw [Function.update_of_ne inside.ne, owns]⟩
    · rw [objects, List.length_append]
      exact Nat.le_add_right ..
    · exact Function.update_of_ne inside.ne ..
    · rw [objects, List.getElem?_append_left inside]

/-- States that have the same mappings at the sites that are kept are merged one after the other. -/
theorem foldl_merge {states : List ExecutionState} (h : Keeping kept owner i owner' j)
    (alike : ∀ s ∈ states, (j.resume s).Owned owner' ∧
      ∀ site, kept site → s.mapping site = i.state.mapping site) :
    Keeping kept owner i owner' (j.resume (states.foldl ExecutionState.merge j.state)) := by
  induction states generalizing j with
  | nil => exact h
  | cons s states ih =>
    obtain ⟨owned, same⟩ := alike s List.mem_cons_self
    exact ih (h.merge owned fun site keeps => .inr (same site keeps))
      fun t mem => alike t (List.mem_cons_of_mem _ mem)

end Keeping

/-- The same, whatever the owners of the objects are. -/
def Interpretation.Keeps (kept : Site → Prop) (i i' : Interpretation) : Prop :=
  ∀ owner, i.Owned owner → ∃ owner', Keeping kept owner i owner' i'

namespace Interpretation.Keeps

variable {kept : Site → Prop} {i j k t e : Interpretation}

theorem of_same (objects : j.objects = i.objects)
    (map : j.state.nodeAnnotationMap = i.state.nodeAnnotationMap) : i.Keeps kept j :=
  fun owner owned => ⟨owner, .of_same owned objects map⟩

theorem refl (i : Interpretation) : i.Keeps kept i := of_same rfl rfl

theorem trans (h : i.Keeps kept j) (h' : j.Keeps kept k) : i.Keeps kept k := by
  intro owner owned
  obtain ⟨owner', first⟩ := h owner owned
  obtain ⟨owner'', second⟩ := h' owner' first.owned
  exact ⟨owner'', first.trans second⟩

theorem addReachabilityMapping (i : Interpretation) (node : Node) (cond : Expr .boolean)
    (other : ¬kept (.node node)) : i.Keeps kept (i.addReachabilityMapping node cond) :=
  fun _ owned => Keeping.exists_addReachabilityMapping owned node cond other

/-- Two branches, the states of which are merged. -/
theorem branch {cond : Expr .boolean}
    (ifTrue : (i.resume (i.state.pushExecutionCondition cond)).Keeps kept t)
    (ifFalse : (t.resume i.state).Keeps kept e) :
    i.Keeps kept (e.resume (e.state.merge t.state)) := by
  intro owner owned
  obtain ⟨owner₁, keepsT⟩ := ifTrue owner owned
  have keepsT' := keepsT.fork owned
  obtain ⟨owner₂, keepsE⟩ := ifFalse owner₁ keepsT'.owned
  refine ⟨owner₂, (keepsT'.trans keepsE).merge (keepsE.owned_resume keepsT.owned) ?_⟩
  exact fun site keeps => .inr (keepsT.mapping site keeps)

end Interpretation.Keeps

section Bodies

variable {kept : Site → Prop}

open ExpressionResolver FlayStepper

/-- What is computed for an expression leaves the sites that are not in it. -/
theorem computeResult_keeps {t : Ty} (e : ProgramExpr Empty t)
    (other : ∀ site ∈ e.visited Empty.elim, ¬kept site) {i i' : Interpretation} {r : Expr t}
    (ran : computeResult SymbolicHandlers.none e i = some (r, i')) : i.Keeps kept i' := by
  induction e generalizing i i' with
  | lit value =>
    cases ran
    exact .refl i
  | path node name t =>
    simp only [computeResult, Option.bind_eq_bind, Option.bind_eq_some_iff] at ran
    obtain ⟨value, -, same⟩ := ran
    cases same
    exact fun owner owned => ⟨owner, .addExpressionMapping owned node _ other⟩
  | hit _ table | miss _ table | actionRun table => exact table.elim
  | lNot e ih | unary _ e ih =>
    simp only [computeResult, Option.bind_eq_bind, Option.bind_eq_some_iff] at ran
    obtain ⟨⟨value, j⟩, computed, same⟩ := ran
    cases same
    exact ih other computed
  | lAnd left right ihl ihr | lOr left right ihl ihr | equ left right ihl ihr
  | neq left right ihl ihr | binary _ left right ihl ihr =>
    simp only [computeResult, Option.bind_eq_bind, Option.bind_eq_some_iff] at ran
    obtain ⟨⟨l, j⟩, computedLeft, ⟨r, k⟩, computedRight, same⟩ := ran
    cases same
    exact (ihl (fun site mem => other site (List.mem_append_left _ mem)) computedLeft).trans
      (ihr (fun site mem => other site (List.mem_append_right _ mem)) computedRight)
  | mux e0 e1 e2 ih0 ih1 ih2 =>
    simp only [computeResult, Option.bind_eq_bind, Option.bind_eq_some_iff] at ran
    obtain ⟨⟨cond, j⟩, computed0, ⟨elseExpr, k⟩, computed2, ⟨ifExpr, t⟩, computed1, same⟩ := ran
    cases same
    simp only [ProgramExpr.visited, List.mem_append] at other
    have before := (ih0 (fun site mem => other site (.inl mem)) computed0).trans
      (ih2 (fun site mem => other site (.inr (.inl mem))) computed2)
    have choice := ih1 (fun site mem => other site (.inr (.inr mem))) computed1
    exact before.trans (.branch choice (.refl _))

mutual

theorem statement_keeps : (s : Statement Empty Empty) →
    (∀ site ∈ s.visited Empty.elim, ¬kept site) → {i i' : Interpretation} →
      statement SymbolicHandlers.none s i = some i' → i.Keeps kept i'
  | .empty, _, i, _, ran => by
    cases ran
    exact .refl i
  | .assignment left right, other, i, _, ran => by
    simp only [statement, Option.bind_eq_bind, Option.bind_eq_some_iff] at ran
    obtain ⟨⟨r, j⟩, computed, same⟩ := ran
    cases same
    exact (computeResult_keeps right other computed).trans (.of_same rfl rfl)
  | .declaration _ _, _, _, _, ran => by cases ran
  | .block components, other, _, _, ran => statements_keeps components other ran
  | .ifStatement node condition ifTrue ifFalse, other, i, _, ran => by
    simp only [statement, Option.bind_eq_bind, Option.bind_eq_some_iff] at ran
    obtain ⟨⟨cond, j⟩, computed, t, ranTrue, e, ranFalse, same⟩ := ran
    cases same
    simp only [Statement.visited, List.mem_append, List.mem_cons] at other
    have before := computeResult_keeps condition (fun site mem => other site (.inl mem)) computed
    have mapped := Interpretation.Keeps.addReachabilityMapping j node cond
      (other _ (.inr (.inl rfl)))
    have taken := statement_keeps ifTrue
      (fun site mem => other site (.inr (.inr (.inl mem)))) ranTrue
    have skipped := optionalStatement_keeps ifFalse
      (fun site mem => other site (.inr (.inr (.inr mem)))) ranFalse
    exact before.trans (mapped.trans (.branch taken skipped))
  | .switchStatement expression cases, other, i, _, ran => by
    simp only [statement, Option.bind_eq_bind, Option.bind_eq_some_iff] at ran
    obtain ⟨⟨switchExpr, j⟩, computed, ⟨k, states⟩, ranCases, d, ranDefault, same⟩ := ran
    cases same
    simp only [Statement.visited, List.mem_append] at other
    have before := computeResult_keeps expression (fun site mem => other site (.inl mem)) computed
    have otherCases := fun site mem => other site (.inr mem)
    refine before.trans fun owner owned => ?_
    obtain ⟨owner₁, keeps₁, alike⟩ := switchCases_keeps cases otherCases ranCases owner owned
    obtain ⟨owner₂, keeps₂⟩ := defaultCase_keeps cases otherCases ranDefault owner₁ keeps₁.owned
    refine ⟨owner₂, (keeps₁.trans keeps₂).foldl_merge fun s mem => ?_⟩
    exact ⟨keeps₂.owned_resume (alike s mem).1, (alike s mem).2⟩

theorem statements_keeps : (l : List (Statement Empty Empty)) →
    (∀ site ∈ visitedAll Empty.elim l, ¬kept site) → {i i' : Interpretation} →
      statements SymbolicHandlers.none l i = some i' → i.Keeps kept i'
  | [], _, i, _, ran => by
    cases ran
    exact .refl i
  | s :: l, other, _, _, ran => by
    simp only [statements, Option.bind_eq_bind, Option.bind_eq_some_iff] at ran
    obtain ⟨j, ran, rest⟩ := ran
    exact (statement_keeps s (fun site mem => other site (List.mem_append_left _ mem)) ran).trans
      (statements_keeps l (fun site mem => other site (List.mem_append_right _ mem)) rest)

theorem optionalStatement_keeps : (s : Option (Statement Empty Empty)) →
    (∀ site ∈ visitedOption Empty.elim s, ¬kept site) → {i i' : Interpretation} →
      optionalStatement SymbolicHandlers.none s i = some i' → i.Keeps kept i'
  | none, _, i, _, ran => by
    cases ran
    exact .refl i
  | some s, other, _, _, ran => statement_keeps s other ran

theorem switchCases_keeps : (cases : List (SwitchCase Empty Empty)) →
    (∀ site ∈ visitedCases Empty.elim cases, ¬kept site) → {t : Ty} → {switchExpr : Expr t} →
      {cond : Option (Expr .boolean)} → {i i' : Interpretation} → {states : List ExecutionState} →
        switchCases SymbolicHandlers.none switchExpr cond cases i = some (i', states) →
          ∀ owner, i.Owned owner → ∃ owner', Keeping kept owner i owner' i' ∧
            ∀ s ∈ states, (i'.resume s).Owned owner' ∧
              ∀ site, kept site → s.mapping site = i.state.mapping site
  | [], _, _, _, _, i, _, _, ran => by
    cases ran
    exact fun owner owned => ⟨owner, .refl owned, by simp⟩
  | .mk node label body :: cases, other, t, switchExpr, cond, i, i', states, ran => by
    simp only [visitedCases, List.mem_cons, List.mem_append] at other
    have otherCases := fun site mem => other site (.inr (.inr mem))
    rw [switchCases] at ran
    split at ran
    · cases ran
      exact fun owner owned => ⟨owner, .refl owned, by simp⟩
    · cases constant : label.literal t with
      | none => simp [constant] at ran
      | some u =>
        simp only [constant] at ran
        intro owner owned
        obtain ⟨owner₁, keeps₁⟩ := Interpretation.Keeps.addReachabilityMapping i node
          (.equ switchExpr (.lit u)) (other _ (.inl rfl)) owner owned
        cases body with
        | none =>
          obtain ⟨owner₂, keeps₂, alike⟩ :=
            switchCases_keeps cases otherCases ran owner₁ keeps₁.owned
          refine ⟨owner₂, keeps₁.trans keeps₂, fun s mem => ⟨(alike s mem).1, fun site keeps => ?_⟩⟩
          exact ((alike s mem).2 site keeps).trans (keeps₁.mapping site keeps)
        | some body =>
          simp only [caseBody, Option.bind_eq_bind, Option.bind_eq_some_iff] at ran
          obtain ⟨c, ranBody, ⟨k, rest⟩, ranRest, same⟩ := ran
          cases same
          obtain ⟨owner₂, keepsC⟩ := statements_keeps body
            (fun site mem => other site (.inr (.inl mem))) ranBody owner₁ keeps₁.owned
          have keeps₂ := keepsC.fork keeps₁.owned
          obtain ⟨owner₃, keeps₃, alike⟩ :=
            switchCases_keeps cases otherCases ranRest owner₂ keeps₂.owned
          refine ⟨owner₃, keeps₁.trans (keeps₂.trans keeps₃), fun s mem => ?_⟩
          obtain rfl | mem := List.mem_cons.mp mem
          · refine ⟨keeps₃.owned_resume keepsC.owned, fun site keeps => ?_⟩
            exact (keepsC.mapping site keeps).trans (keeps₁.mapping site keeps)
          · refine ⟨(alike s mem).1, fun site keeps => ?_⟩
            exact ((alike s mem).2 site keeps).trans (keeps₁.mapping site keeps)

theorem defaultCase_keeps : (cases : List (SwitchCase Empty Empty)) →
    (∀ site ∈ visitedCases Empty.elim cases, ¬kept site) → {i i' : Interpretation} →
      defaultCase SymbolicHandlers.none cases i = some i' → i.Keeps kept i'
  | [], _, i, _, ran => by
    cases ran
    exact .refl i
  | .mk node label body :: cases, other, _, _, ran => by
    simp only [visitedCases, List.mem_cons, List.mem_append] at other
    rw [defaultCase] at ran
    split at ran
    · exact defaultBody_keeps body (fun site mem => other site (.inr (.inl mem))) ran
    · exact defaultCase_keeps cases (fun site mem => other site (.inr (.inr mem))) ran

theorem defaultBody_keeps : (body : Option (List (Statement Empty Empty))) →
    (∀ site ∈ visitedBody Empty.elim body, ¬kept site) → {i i' : Interpretation} →
      defaultBody SymbolicHandlers.none body i = some i' → i.Keeps kept i'
  | none, _, _, _, ran => by cases ran
  | some body, other, _, _, ran => statements_keeps body other ran

end

end Bodies

end Flay
