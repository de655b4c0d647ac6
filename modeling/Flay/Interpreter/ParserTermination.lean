import Flay.Interpreter.ParserSimulation

/-! Loops of a parser: the interpreter comes to an end, or reports a loop, on every parser but those in
which default cases alone lead from a state that is visited back to it. -/

namespace Flay

/-- The cases ahead of the default one. -/
def explicitCases {types : List Ty} (l : List (SelectCase types)) : List (SelectCase types) :=
  l.takeWhile fun c => !c.keyset.isDefault

/-- The state of the default case. -/
def defaultState {types : List Ty} (l : List (SelectCase types)) : Option String :=
  (l.find? fun c => c.keyset.isDefault).map SelectCase.state

/-- A parser state that is visited, with the ids that have been visited before. -/
structure Visit where
  visited : List Int
  state : String

namespace P4Parser

variable {ε : Type} (p : P4Parser ε)

/-- The id of the state has not been visited. -/
def Fresh (visited : List Int) (state : String) : Prop :=
  ∃ id, p.cloneId state = some id ∧ id ∉ visited

/-- The visit of a state whose id is added. -/
def enter (visited : List Int) (state : String) : Visit :=
  ⟨(p.cloneId state).toList ++ visited, state⟩

/-- The visit of a state comes to an end without a report. -/
inductive Finishes : Visit → Prop
  | final {v : Visit} {state : ParserState ε} (found : p.findDecl v.state = some state)
      (final : state.isFinal = true) : Finishes v
  | path {v : Visit} {state : ParserState ε} {target : String}
      (found : p.findDecl v.state = some state) (final : state.isFinal = false)
      (transition : state.selectExpression = .path target) (fresh : p.Fresh v.visited target)
      (rest : Finishes (p.enter v.visited target)) : Finishes v
  | select {v : Visit} {state : ParserState ε} {e : SelectExpression}
      (found : p.findDecl v.state = some state) (final : state.isFinal = false)
      (transition : state.selectExpression = .select e)
      (fresh : ∀ c ∈ explicitCases e.selectCases, p.Fresh v.visited c.state)
      (explicit : ∀ c ∈ explicitCases e.selectCases, Finishes (p.enter v.visited c.state))
      (default : ∀ target ∈ defaultState e.selectCases, Finishes ⟨v.visited, target⟩) : Finishes v

/-- The visit of a state leads to one of another state by the default case: those of the other cases
come to an end. -/
inductive ByDefault : Visit → Visit → Prop
  | mk {v : Visit} {state : ParserState ε} {e : SelectExpression} {target : String}
      (found : p.findDecl v.state = some state) (final : state.isFinal = false)
      (transition : state.selectExpression = .select e)
      (finished : ∀ c ∈ explicitCases e.selectCases,
        p.Fresh v.visited c.state ∧ p.Finishes (p.enter v.visited c.state))
      (default : defaultState e.selectCases = some target) : ByDefault v ⟨v.visited, target⟩

/-- The visit of a state leads to one of another state. -/
inductive Leads : Visit → Visit → Prop
  | path {v : Visit} {state : ParserState ε} {target : String}
      (found : p.findDecl v.state = some state) (final : state.isFinal = false)
      (transition : state.selectExpression = .path target) (fresh : p.Fresh v.visited target) :
      Leads v (p.enter v.visited target)
  | explicit {v : Visit} {state : ParserState ε} {e : SelectExpression}
      {before after : List (SelectCase e.types)} {c : SelectCase e.types}
      (found : p.findDecl v.state = some state) (final : state.isFinal = false)
      (transition : state.selectExpression = .select e)
      (split : explicitCases e.selectCases = before ++ c :: after)
      (finished : ∀ d ∈ before,
        p.Fresh v.visited d.state ∧ p.Finishes (p.enter v.visited d.state))
      (fresh : p.Fresh v.visited c.state) : Leads v (p.enter v.visited c.state)
  | default {v v' : Visit} (byDefault : p.ByDefault v v') : Leads v v'

/-- From the start state, the visits lead to a state from which default cases alone lead back to it. -/
def LoopsByDefault (visited : List Int) : Prop :=
  ∃ v, Relation.ReflTransGen p.Leads (p.enter visited "start") v ∧ Relation.TransGen p.ByDefault v v

instance (visited : List Int) (state : String) : Decidable (p.Fresh visited state) :=
  match h : p.cloneId state with
  | none => .isFalse fun ⟨_, found, _⟩ => by rw [h] at found; cases found
  | some id =>
    decidable_of_iff (id ∉ visited)
      ⟨fun fresh => ⟨id, h, fresh⟩, fun ⟨_, found, fresh⟩ => by
        rw [h] at found; cases found; exact fresh⟩

/-! ### Visits without an interpreter -/

/-- The visits that the cases of a select expression lead to, one after another. -/
def traverseCases (visit : Visit → Except ParserFailure Unit) (visited : List Int)
    {types : List Ty} : List (SelectCase types) → Except ParserFailure Unit
  | [] => .ok ()
  | ⟨.default, state⟩ :: _ => visit ⟨visited, state⟩
  | ⟨_, state⟩ :: cases =>
    if p.Fresh visited state then do
      visit (p.enter visited state)
      traverseCases visit visited cases
    else .error (.alreadyVisited state)

/-- The visits that the visit of a state leads to. -/
def traverse : Nat → Visit → Except ParserFailure Unit
  | 0, _ => .error .outOfFuel
  | fuel + 1, v =>
    match p.findDecl v.state with
    | none => .error .unimplemented
    | some state =>
      if state.isFinal then .ok ()
      else
        match state.selectExpression with
        | .select e => p.traverseCases (traverse fuel) v.visited e.selectCases
        | .path target =>
          if p.Fresh v.visited target then traverse fuel (p.enter v.visited target)
          else .error (.alreadyVisited target)

variable {p} {visit visit' : Visit → Except ParserFailure Unit} {visited : List Int}
  {types : List Ty} {l : List (SelectCase types)} {v v' : Visit} {fuel : Nat}

@[simp] theorem explicitCases_cons {c : SelectCase types} :
    explicitCases (c :: l) = if c.keyset.isDefault then [] else c :: explicitCases l := by
  cases kind : c.keyset.isDefault <;> simp [explicitCases, kind]

@[simp] theorem defaultState_cons {c : SelectCase types} :
    defaultState (c :: l) = if c.keyset.isDefault then some c.state else defaultState l := by
  cases kind : c.keyset.isDefault <;> simp [defaultState, kind]

theorem traverseCases_default {c : SelectCase types} (kind : c.keyset.isDefault = true) :
    p.traverseCases visit visited (c :: l) = visit ⟨visited, c.state⟩ := by
  obtain ⟨keyset, state⟩ := c
  cases keyset with
  | valueSet set => cases kind
  | components l => cases kind
  | default => rfl

theorem traverseCases_explicit {c : SelectCase types} (kind : c.keyset.isDefault = false) :
    p.traverseCases visit visited (c :: l) =
      if p.Fresh visited c.state then do
        visit (p.enter visited c.state)
        p.traverseCases visit visited l
      else .error (.alreadyVisited c.state) := by
  obtain ⟨keyset, state⟩ := c
  cases keyset with
  | default => cases kind
  | valueSet set | components l => rfl

/-- Where the visits of the cases do not report anything, the loop goes on to the default case. -/
theorem traverseCases_of_runs
    (runs : ∀ c ∈ explicitCases l, p.Fresh visited c.state ∧
      (visit (p.enter visited c.state) = .ok () ∨
        visit (p.enter visited c.state) = .error .outOfFuel)) :
    p.traverseCases visit visited l = .error .outOfFuel ∨
      p.traverseCases visit visited l =
        (defaultState l).elim (.ok ()) fun target => visit ⟨visited, target⟩ := by
  induction l with
  | nil => exact .inr rfl
  | cons c l ih =>
    cases kind : c.keyset.isDefault with
    | true => exact .inr (by simp [traverseCases_default kind, kind])
    | false =>
      simp only [explicitCases_cons, kind, Bool.false_eq_true, if_false, List.mem_cons,
        forall_eq_or_imp] at runs
      obtain ⟨⟨fresh, ended | out⟩, runs⟩ := runs
      · rw [traverseCases_explicit kind, if_pos fresh, ended, defaultState_cons, kind]
        exact ih runs
      · exact .inl (by rw [traverseCases_explicit kind, if_pos fresh, out]; rfl)

/-- No case is reached after one whose state has visits without end. -/
theorem traverseCases_of_outOfFuel {before after : List (SelectCase types)} {c : SelectCase types}
    (split : explicitCases l = before ++ c :: after)
    (runs : ∀ d ∈ before, p.Fresh visited d.state ∧
      (visit (p.enter visited d.state) = .ok () ∨
        visit (p.enter visited d.state) = .error .outOfFuel))
    (fresh : p.Fresh visited c.state)
    (out : visit (p.enter visited c.state) = .error .outOfFuel) :
    p.traverseCases visit visited l = .error .outOfFuel := by
  induction l generalizing before with
  | nil => exact absurd split (by simp [explicitCases])
  | cons d l ih =>
    cases kind : d.keyset.isDefault with
    | true => exact absurd split (by simp [kind])
    | false =>
      simp only [explicitCases_cons, kind, Bool.false_eq_true, if_false] at split
      cases before with
      | nil =>
        obtain ⟨rfl, -⟩ := List.cons.inj split
        rw [traverseCases_explicit kind, if_pos fresh, out]
        rfl
      | cons b before =>
        obtain ⟨rfl, rest⟩ := List.cons.inj split
        obtain ⟨⟨freshD, ended | outD⟩, runs⟩ := List.forall_mem_cons.mp runs
        · rw [traverseCases_explicit kind, if_pos freshD, ended]
          exact ih rest runs
        · rw [traverseCases_explicit kind, if_pos freshD, outD]
          rfl

/-- Where the visits of the cases come to an end, so do those of each one. -/
theorem ok_of_traverseCases (ended : p.traverseCases visit visited l = .ok ()) :
    (∀ c ∈ explicitCases l, p.Fresh visited c.state ∧ visit (p.enter visited c.state) = .ok ()) ∧
      ∀ target ∈ defaultState l, visit ⟨visited, target⟩ = .ok () := by
  induction l with
  | nil => simp [explicitCases, defaultState]
  | cons c l ih =>
    cases kind : c.keyset.isDefault with
    | true =>
      rw [traverseCases_default kind] at ended
      simpa [kind] using ended
    | false =>
      rw [traverseCases_explicit kind] at ended
      split at ended
      · rename_i fresh
        cases first : visit (p.enter visited c.state) with
        | error failure => simp [first, bind, Except.bind] at ended
        | ok =>
          rw [first] at ended
          simpa [kind, fresh, first] using ih ended
      · cases ended

/-- Visits with more fuel go on as those that did not run out of it. -/
theorem traverseCases_mono (more : ∀ v, visit v ≠ .error .outOfFuel → visit' v = visit v)
    (enough : p.traverseCases visit visited l ≠ .error .outOfFuel) :
    p.traverseCases visit' visited l = p.traverseCases visit visited l := by
  induction l with
  | nil => rfl
  | cons c l ih =>
    cases kind : c.keyset.isDefault with
    | true =>
      rw [traverseCases_default kind] at enough ⊢
      rw [traverseCases_default kind, more _ enough]
    | false =>
      rw [traverseCases_explicit kind] at enough ⊢
      rw [traverseCases_explicit kind]
      split at enough
      · rename_i fresh
        rw [if_pos fresh, if_pos fresh]
        cases first : visit (p.enter visited c.state) with
        | error failure =>
          rw [more _ (by rw [first]; intro h; simp [first, h, bind, Except.bind] at enough), first]
          rfl
        | ok =>
          rw [more _ (by rw [first]; simp), first]
          rw [first] at enough
          exact ih enough
      · rename_i visitedBefore
        rw [if_neg visitedBefore, if_neg visitedBefore]

section Transitions

variable {state : ParserState ε} (found : p.findDecl v.state = some state)

include found

theorem traverse_final (final : state.isFinal = true) : p.traverse (fuel + 1) v = .ok () := by
  simp only [traverse, found, if_pos final]

theorem traverse_path {target : String} (final : state.isFinal = false)
    (transition : state.selectExpression = .path target) :
    p.traverse (fuel + 1) v =
      if p.Fresh v.visited target then p.traverse fuel (p.enter v.visited target)
      else .error (.alreadyVisited target) := by
  simp only [traverse, found, final, Bool.false_eq_true, if_false, transition]

theorem traverse_select {e : SelectExpression} (final : state.isFinal = false)
    (transition : state.selectExpression = .select e) :
    p.traverse (fuel + 1) v = p.traverseCases (p.traverse fuel) v.visited e.selectCases := by
  simp only [traverse, found, final, Bool.false_eq_true, if_false, transition]

end Transitions

theorem traverse_succ (enough : p.traverse fuel v ≠ .error .outOfFuel) :
    p.traverse (fuel + 1) v = p.traverse fuel v := by
  induction fuel generalizing v with
  | zero => exact absurd rfl enough
  | succ fuel ih =>
    cases found : p.findDecl v.state with
    | none => simp only [traverse, found]
    | some state =>
      cases final : state.isFinal with
      | true => rw [traverse_final found final, traverse_final found final]
      | false =>
        cases transition : state.selectExpression with
        | select e =>
          rw [traverse_select found final transition] at enough ⊢
          rw [traverse_select found final transition]
          exact traverseCases_mono (fun v h => ih h) enough
        | path target =>
          rw [traverse_path found final transition] at enough ⊢
          rw [traverse_path found final transition]
          split
          · rename_i fresh
            rw [if_pos fresh] at enough
            exact ih enough
          · rfl

theorem traverse_mono {n : Nat} (enough : p.traverse fuel v ≠ .error .outOfFuel) (le : fuel ≤ n) :
    p.traverse n v = p.traverse fuel v := by
  induction le with
  | refl => rfl
  | step _ ih =>
    rw [← ih] at enough ⊢
    exact traverse_succ enough

theorem finishes_of_traverse (ended : p.traverse fuel v = .ok ()) : p.Finishes v := by
  induction fuel generalizing v with
  | zero => cases ended
  | succ fuel ih =>
    cases found : p.findDecl v.state with
    | none => simp [traverse, found] at ended
    | some state =>
      cases final : state.isFinal with
      | true => exact .final found final
      | false =>
        cases transition : state.selectExpression with
        | select e =>
          rw [traverse_select found final transition] at ended
          obtain ⟨explicit, default⟩ := ok_of_traverseCases ended
          exact .select found final transition (fun c mem => (explicit c mem).1)
            (fun c mem => ih (explicit c mem).2) fun target mem => ih (default target mem)
        | path target =>
          rw [traverse_path found final transition] at ended
          split at ended
          · rename_i fresh
            exact .path found final transition fresh (ih ended)
          · cases ended

/-- Visits that come to an end do not report anything. -/
theorem Finishes.traverse (ends : p.Finishes v) (fuel : Nat) :
    p.traverse fuel v = .ok () ∨ p.traverse fuel v = .error .outOfFuel := by
  induction ends generalizing fuel with
  | final found final =>
    cases fuel with
    | zero => exact .inr rfl
    | succ fuel => exact .inl (traverse_final found final)
  | path found final transition fresh _ ih =>
    cases fuel with
    | zero => exact .inr rfl
    | succ fuel =>
      rw [traverse_path found final transition, if_pos fresh]
      exact ih fuel
  | @select v _ e found final transition fresh _ _ explicit default =>
    cases fuel with
    | zero => exact .inr rfl
    | succ fuel =>
      rw [traverse_select found final transition]
      obtain out | last := traverseCases_of_runs fun c mem => ⟨fresh c mem, explicit c mem fuel⟩
      · exact .inr out
      · rw [last]
        cases target : defaultState e.selectCases with
        | none => exact .inl rfl
        | some target' => exact default target' target fuel

/-! ### Visits without end -/

theorem ByDefault.outOfFuel (edge : p.ByDefault v v')
    (out : p.traverse fuel v' = .error .outOfFuel) :
    p.traverse (fuel + 1) v = .error .outOfFuel := by
  obtain ⟨found, final, transition, finished, default⟩ := edge
  rw [traverse_select found final transition]
  obtain h | last := traverseCases_of_runs fun c mem =>
    ⟨(finished c mem).1, (finished c mem).2.traverse fuel⟩
  · exact h
  · rw [last, default]
    exact out

theorem Leads.outOfFuel (edge : p.Leads v v') (out : p.traverse fuel v' = .error .outOfFuel) :
    p.traverse (fuel + 1) v = .error .outOfFuel := by
  cases edge with
  | path found final transition fresh =>
    rw [traverse_path found final transition, if_pos fresh, out]
  | explicit found final transition split finished fresh =>
    rw [traverse_select found final transition]
    exact traverseCases_of_outOfFuel split
      (fun c mem => ⟨(finished c mem).1, (finished c mem).2.traverse fuel⟩) fresh out
  | default byDefault => exact byDefault.outOfFuel out

/-- A loop of default cases takes any fuel. -/
theorem outOfFuel_of_loop (loop : Relation.TransGen p.ByDefault v v) (fuel : Nat) :
    p.traverse fuel v = .error .outOfFuel := by
  induction fuel generalizing v with
  | zero => rfl
  | succ fuel ih =>
    obtain ⟨v', edge, back⟩ := Relation.TransGen.head'_iff.mp loop
    exact edge.outOfFuel (ih (.tail' back edge))

theorem outOfFuel_of_leads (path : Relation.ReflTransGen p.Leads v v')
    (out : ∀ fuel, p.traverse fuel v' = .error .outOfFuel) (fuel : Nat) :
    p.traverse fuel v = .error .outOfFuel := by
  induction path using Relation.ReflTransGen.head_induction_on generalizing fuel with
  | refl => exact out fuel
  | head edge _ ih =>
    cases fuel with
    | zero => rfl
    | succ fuel => exact edge.outOfFuel (ih fuel)

/-! ### Visits that come to an end -/

/-- With some fuel, the visit of a state does not run out of it. -/
def Halts (p : P4Parser ε) (v : Visit) : Prop := ∃ fuel, p.traverse fuel v ≠ .error .outOfFuel

/-- The loop over the cases halts where the visits do that a case leads to after those before it. -/
theorem halts_of_cases
    (explicit : ∀ before' after c, explicitCases l = before' ++ c :: after →
      (∀ d ∈ before', p.Fresh visited d.state ∧ p.Finishes (p.enter visited d.state)) →
        p.Fresh visited c.state → p.Halts (p.enter visited c.state))
    (default : (∀ d ∈ explicitCases l,
        p.Fresh visited d.state ∧ p.Finishes (p.enter visited d.state)) →
      ∀ target ∈ defaultState l, p.Halts ⟨visited, target⟩) :
    ∃ fuel, p.traverseCases (p.traverse fuel) visited l ≠ .error .outOfFuel := by
  induction l with
  | nil => exact ⟨0, fun out => by cases out⟩
  | cons c l ih =>
    cases kind : c.keyset.isDefault with
    | true =>
      obtain ⟨fuel, halts⟩ := default (by simp [kind]) c.state (by simp [kind])
      exact ⟨fuel, by rwa [traverseCases_default kind]⟩
    | false =>
      rw [explicitCases_cons, kind, if_neg Bool.false_ne_true] at explicit default
      rw [defaultState_cons, kind, if_neg Bool.false_ne_true] at default
      by_cases fresh : p.Fresh visited c.state
      · obtain ⟨n, halts⟩ := explicit [] (explicitCases l) c rfl (fun _ mem => nomatch mem) fresh
        cases first : p.traverse n (p.enter visited c.state) with
        | error failure =>
          refine ⟨n, ?_⟩
          rw [traverseCases_explicit kind, if_pos fresh, first]
          rw [first] at halts
          exact fun out => halts (by simpa [bind, Except.bind] using out)
        | ok =>
          have finishes := finishes_of_traverse first
          obtain ⟨m, rest⟩ := ih
            (fun before after d split finished => explicit (c :: before) after d (by rw [split]; rfl)
              (List.forall_mem_cons.mpr ⟨⟨fresh, finishes⟩, finished⟩))
            fun finished => default (List.forall_mem_cons.mpr ⟨⟨fresh, finishes⟩, finished⟩)
          refine ⟨max n m, ?_⟩
          have goesOn : p.traverseCases (p.traverse (max n m)) visited l =
              p.traverseCases (p.traverse m) visited l :=
            traverseCases_mono (fun v enough => traverse_mono enough (Nat.le_max_right n m)) rest
          rw [traverseCases_explicit kind, if_pos fresh, traverse_mono halts (Nat.le_max_left n m),
            first]
          change p.traverseCases _ visited l ≠ _
          rwa [goesOn]
      · exact ⟨0, by rw [traverseCases_explicit kind, if_neg fresh]; exact fun out => by cases out⟩

/-- The visit of a state halts where every visit does that it leads to. -/
theorem halts_of_leads (halts : ∀ v', p.Leads v v' → p.Halts v') : p.Halts v := by
  cases found : p.findDecl v.state with
  | none => exact ⟨1, by simp [traverse, found]⟩
  | some state =>
    cases final : state.isFinal with
    | true => exact ⟨1, by simp [traverse_final found final]⟩
    | false =>
      cases transition : state.selectExpression with
      | path target =>
        by_cases fresh : p.Fresh v.visited target
        · obtain ⟨fuel, halts⟩ := halts _ (.path found final transition fresh)
          exact ⟨fuel + 1, by rwa [traverse_path found final transition, if_pos fresh]⟩
        · exact ⟨1, by simp [traverse_path found final transition, if_neg fresh]⟩
      | select e =>
        have ends : ∃ fuel, p.traverseCases (p.traverse fuel) v.visited e.selectCases ≠
            .error .outOfFuel :=
          halts_of_cases
            (fun before after c split finished fresh =>
              halts _ (.explicit found final transition split finished fresh))
            fun finished target mem =>
              halts _ (.default (.mk found final transition finished mem))
        obtain ⟨fuel, halts⟩ := ends
        exact ⟨fuel + 1, by rwa [traverse_select found final transition]⟩

/-- The ids of states that have not been visited. -/
def unvisitedIds (p : P4Parser ε) (visited : List Int) : Finset Int :=
  (p.states.map ParserState.cloneId).toFinset.filter (· ∉ visited)

/-- A state that is entered leaves fewer ids. -/
theorem card_unvisitedIds_enter {target : String} (fresh : p.Fresh visited target) :
    (p.unvisitedIds (p.enter visited target).visited).card < (p.unvisitedIds visited).card := by
  obtain ⟨id, known, new⟩ := fresh
  obtain ⟨state, found, rfl⟩ := Option.map_eq_some_iff.mp known
  have mem : state.cloneId ∈ p.states.map ParserState.cloneId :=
    List.mem_map_of_mem (List.mem_of_find?_eq_some found)
  refine Finset.card_lt_card (Finset.ssubset_iff_of_subset ?_ |>.mpr ⟨state.cloneId, ?_, ?_⟩)
  · intro id mem
    simp only [unvisitedIds, enter, Finset.mem_filter, List.mem_append, not_or] at mem ⊢
    exact ⟨mem.1, mem.2.2⟩
  · exact Finset.mem_filter.mpr ⟨List.mem_toFinset.mpr mem, new⟩
  · simp [unvisitedIds, enter, known]

/-- Where no loop of default cases is reached, the visits come to an end: each that enters a state
leaves fewer ids, and default cases alone lead along a graph without cycles. -/
theorem halts_of_no_loop
    (straight : ∀ v', Relation.ReflTransGen p.Leads v v' → ¬Relation.TransGen p.ByDefault v' v') :
    p.Halts v := by
  induction left : (p.unvisitedIds v.visited).card using Nat.strong_induction_on generalizing v with
  | _ k ih =>
    let inPlace : String → Visit := fun state => ⟨v.visited, state⟩
    let next : String → String → Prop := fun a b =>
      Relation.ReflTransGen p.Leads v (inPlace a) ∧ p.ByDefault (inPlace a) (inPlace b)
    have acyclic : Paths.Acyclic next := by
      intro a loop
      obtain ⟨b, ⟨reached, -⟩, -⟩ := Relation.TransGen.head'_iff.mp loop
      exact straight _ reached (loop.lift inPlace fun _ _ edge => edge.2)
    obtain ⟨rank, descends⟩ := acyclic.exists_rank (p.states.map ParserState.name).toFinset
      fun a b ⟨_, edge⟩ => by
        cases edge with
        | mk found final transition finished default =>
          rw [List.mem_toFinset]
          have named := List.find?_some found
          exact List.mem_map.mpr ⟨_, List.mem_of_find?_eq_some found, by simpa using named⟩
    have halts : ∀ n state, rank state = n → Relation.ReflTransGen p.Leads v (inPlace state) →
        p.Halts (inPlace state) := by
      intro n
      induction n using Nat.strong_induction_on with
      | _ n ihRank =>
        intro state ranked reached
        refine halts_of_leads fun v' edge => ?_
        have reached' := reached.tail edge
        have entered : ∀ target, v' = p.enter v.visited target → p.Fresh v.visited target →
            p.Halts v' := by
          rintro target rfl fresh
          exact ih _ (left ▸ card_unvisitedIds_enter fresh)
            (fun w path => straight w (reached'.trans path)) rfl
        cases edge with
        | path found final transition fresh => exact entered _ rfl fresh
        | explicit found final transition split finished fresh => exact entered _ rfl fresh
        | default edge =>
          have kept : v' = inPlace v'.state := by
            cases edge
            rfl
          rw [kept] at edge ⊢
          exact ihRank _ (ranked ▸ descends state v'.state ⟨reached, edge⟩) v'.state rfl
            (kept ▸ reached')
    exact halts (rank v.state) v.state rfl .refl

/-- The visits come to an end exactly where no loop of default cases is reached. -/
theorem halts_iff {state : String} :
    p.Halts (p.enter visited state) ↔
      ¬∃ v, Relation.ReflTransGen p.Leads (p.enter visited state) v ∧
        Relation.TransGen p.ByDefault v v := by
  constructor
  · rintro ⟨fuel, halts⟩ ⟨v, reached, loop⟩
    exact halts (outOfFuel_of_leads reached (outOfFuel_of_loop loop) fuel)
  · exact fun straight => halts_of_no_loop fun v reached loop => straight ⟨v, reached, loop⟩

end P4Parser

/-! ### The interpreter -/

namespace ParserStepper

section Mirrors

variable {α β : Type} {r : Except ParserFailure α} {t t' : Except ParserFailure Unit}
  {f : α → Except ParserFailure β}

/-- The interpreter has no rule, or comes to the end that the visits without it come to. -/
def Mirrors (r : Except ParserFailure α) (t : Except ParserFailure Unit) : Prop :=
  r = .error .unimplemented ∨ r.map (fun _ => ()) = t

theorem Mirrors.ok (a : α) : Mirrors (.ok a) (.ok ()) := .inr rfl

theorem Mirrors.error (failure : ParserFailure) :
    Mirrors (.error failure : Except ParserFailure α) (.error failure) := .inr rfl

theorem Mirrors.bind (h : Mirrors r t) (next : ∀ a, Mirrors (f a) t') :
    Mirrors (r >>= f) (t >>= fun _ => t') := by
  cases r with
  | error failure =>
    obtain h | rfl := h
    · cases h
      exact .inl rfl
    · exact .error failure
  | ok a =>
    obtain h | rfl := h
    · cases h
    · exact next a

/-- A last step without a report. -/
theorem Mirrors.bind_ok (h : Mirrors r t) (g : α → β) :
    Mirrors (r >>= fun a => .ok (g a)) t := by
  cases r with
  | error failure =>
    obtain h | rfl := h
    · cases h
      exact .inl rfl
    · exact .error failure
  | ok a =>
    obtain h | rfl := h
    · cases h
    · exact .ok _

theorem Mirrors.implemented {o : Option α} (next : ∀ a, o = some a → Mirrors (f a) t) :
    Mirrors (Flay.implemented o >>= f) t := by
  cases o with
  | none => exact .inl rfl
  | some a => exact next a rfl

/-- What fails does so with a report or for want of fuel, and what does not keeps a condition. -/
def Runs (keeps : α → Prop) : Except ParserFailure α → Prop
  | .ok a => keeps a
  | .error failure => failure ≠ .unimplemented

variable {keeps : α → Prop} {keeps' : β → Prop}

theorem Runs.bind (h : Runs keeps r) (next : ∀ a, keeps a → Runs keeps' (f a)) :
    Runs keeps' (r >>= f) := by
  cases r with
  | error failure => exact h
  | ok a => exact next a h

theorem Runs.implemented {a : α} {o : Option α} (known : o = some a) (next : Runs keeps' (f a)) :
    Runs keeps' (Flay.implemented o >>= f) := by
  rw [known]
  exact next

end Mirrors

variable {ε : Type} {vars : List StateVariable} {p : P4Parser ε}
  {externs : ε → Interpretation → Option Interpretation}

/-- The interpreter has a rule for each extern, which keeps the variables. -/
def ExternsRun (vars : List StateVariable) (externs : ε → Interpretation → Option Interpretation) :
    Prop :=
  ∀ call i, vars ⊆ i.state.env.keys → ∃ i', externs call i = some i' ∧ vars ⊆ i'.state.env.keys

theorem components_run (run : ExternsRun vars externs) (l : List (ParserComponent ε))
    (supported : ∀ c ∈ l, Supported vars c) (i : Interpretation)
    (defined : vars ⊆ i.state.env.keys) :
    ∃ i', components externs l i = some i' ∧ vars ⊆ i'.state.env.keys := by
  induction l generalizing i with
  | nil => exact ⟨i, rfl, defined⟩
  | cons c l ih =>
    have first : ∃ j, component externs c i = some j ∧ vars ⊆ j.state.env.keys := by
      cases c with
      | statement s =>
        obtain ⟨j, ran, steps⟩ := statement_steps s (supported _ List.mem_cons_self) i defined
        exact ⟨j, ran, List.Subset.trans defined steps.simulation.keys⟩
      | externCall call => exact run call i defined
    obtain ⟨j, ran, definedJ⟩ := first
    obtain ⟨k, ran', definedK⟩ := ih (fun d mem => supported d (List.mem_cons_of_mem _ mem)) j definedJ
    exact ⟨k, by simp [components, ran, ran'], definedK⟩

section Cases

variable {step : ParserState ε → ParserExecution → Except ParserFailure ParserExecution}
  {visit : Visit → Except ParserFailure Unit} {types : List Ty}

theorem fresh_iff {visited : List Int} {name : String} {decl : ParserState ε}
    (found : p.findDecl name = some decl) : p.Fresh visited name ↔ decl.cloneId ∉ visited := by
  simp [P4Parser.Fresh, P4Parser.cloneId, found]

theorem enter_of_findDecl {visited : List Int} {name : String} {decl : ParserState ε}
    (found : p.findDecl name = some decl) :
    p.enter visited name = ⟨decl.cloneId :: visited, name⟩ := by
  simp [P4Parser.enter, P4Parser.cloneId, found]

/-- What is done where the id of a state has not been visited. -/
theorem mirrors_unvisited {β : Type} {e : ParserExecution} {name : String} {decl : ParserState ε}
    {next : Except ParserFailure β} {t : Except ParserFailure Unit}
    (found : p.findDecl name = some decl) (mirrors : Mirrors next t) :
    Mirrors
      (do
        if e.hasVisitedParserId decl.cloneId then .error (.alreadyVisited name)
        next)
      (if p.Fresh e.visitedParserIds name then t else .error (.alreadyVisited name)) := by
  by_cases fresh : p.Fresh e.visitedParserIds name
  · have new : e.hasVisitedParserId decl.cloneId = false :=
      decide_eq_false ((fresh_iff found).mp fresh)
    rw [if_pos fresh, new]
    exact mirrors
  · have old : e.hasVisitedParserId decl.cloneId = true :=
      decide_eq_true (not_not.mp fun new => fresh ((fresh_iff found).mpr new))
    rw [if_neg fresh, old]
    exact .error _

variable [GenEq]

theorem matchCond_runs {types : List Ty} {keyset : Keyset types} (named : keyset.isDefault = false)
    (closed : keyset.Closed vars) (selectKeyExpr : Components Expr types) {i : Interpretation}
    (defined : vars ⊆ i.state.env.keys) :
    ∃ cond i', matchCond selectKeyExpr keyset i = some (cond, i') ∧ vars ⊆ i'.state.env.keys := by
  cases keyset with
  | default => cases named
  | valueSet set => exact ⟨_, i, rfl, defined⟩
  | components l =>
    have resolves := Components.Forall.mono (l := l) closed fun keyset => resolveKeyset_resolves keyset
    obtain ⟨r, i', resolved, unchanged, -⟩ := resolveComponents_unchanged l resolves i defined
    exact ⟨GenEq.equate selectKeyExpr r, i', by simp [matchCond, resolved],
      fun x mem => unchanged.mem_keys.mpr (defined mem)⟩

theorem selectCases_mirrors
    (steps : ∀ name decl e, p.findDecl name = some decl →
      Mirrors (step decl e) (visit ⟨e.visitedParserIds, name⟩))
    {selectKeyExpr : Components Expr types} (l : List (SelectCase types))
    (notCond : Option (Expr .boolean)) (e : ParserExecution) :
    Mirrors (selectCases p step selectKeyExpr l notCond e)
      (p.traverseCases visit e.visitedParserIds l) := by
  induction l generalizing notCond e with
  | nil => exact .ok _
  | cons c l ih =>
    obtain ⟨keyset, state⟩ := c
    cases keyset with
    | default =>
      refine .implemented fun decl found => ?_
      exact (steps state decl e found).bind_ok _
    | valueSet set | components l' =>
      refine .implemented fun decl found => ?_
      rw [P4Parser.traverseCases_explicit rfl]
      refine mirrors_unvisited found (.implemented fun matched _ => ?_)
      rw [enter_of_findDecl found]
      refine .bind (steps state decl _ found) fun a => .bind_ok (ih _ _) _

/-- The loop over the cases keeps the variables where the visits of states do. -/
theorem selectCases_runs
    (steps : ∀ name decl e, p.findDecl name = some decl → vars ⊆ e.interpretation.state.env.keys →
      Runs (fun e => vars ⊆ e.interpretation.state.env.keys) (step decl e))
    {selectKeyExpr : Components Expr types} (l : List (SelectCase types))
    (declared : ∀ c ∈ l, ∃ decl, p.findDecl c.state = some decl)
    (closed : ∀ c ∈ l, c.keyset.Closed vars) (notCond : Option (Expr .boolean))
    (e : ParserExecution) (defined : vars ⊆ e.interpretation.state.env.keys) :
    Runs (fun r => vars ⊆ r.1.interpretation.state.env.keys)
      (selectCases p step selectKeyExpr l notCond e) := by
  induction l generalizing notCond e with
  | nil => exact defined
  | cons c l ih =>
    obtain ⟨decl, found⟩ := declared c List.mem_cons_self
    have rest := ih (fun c mem => declared c (List.mem_cons_of_mem _ mem))
      fun c mem => closed c (List.mem_cons_of_mem _ mem)
    cases kind : c.keyset.isDefault with
    | true =>
      obtain ⟨keyset, state⟩ := c
      cases keyset with
      | valueSet set => cases kind
      | components l => cases kind
      | default =>
        refine .implemented found ?_
        exact .bind (steps state decl e found defined) fun a kept => kept
    | false =>
      obtain ⟨cond, i, matched, keptI⟩ :=
        matchCond_runs kind (closed c List.mem_cons_self) selectKeyExpr defined
      obtain ⟨keyset, state⟩ := c
      cases keyset with
      | default => cases kind
      | valueSet set | components l =>
        refine .implemented found ?_
        split
        · exact ParserFailure.noConfusion
        · refine .implemented matched ?_
          refine .bind (steps state decl _ found keptI) fun a _ => ?_
          exact .bind (rest _ _ keptI) fun r kept => kept

theorem processSelectExpression_mirrors
    (steps : ∀ name decl e, p.findDecl name = some decl →
      Mirrors (step decl e) (visit ⟨e.visitedParserIds, name⟩))
    (selectExpr : SelectExpression) (e : ParserExecution) :
    Mirrors (processSelectExpression p step selectExpr e)
      (p.traverseCases visit e.visitedParserIds selectExpr.selectCases) :=
  .implemented fun _ _ => .bind_ok (selectCases_mirrors steps _ _ _) _

theorem processSelectExpression_runs
    (steps : ∀ name decl e, p.findDecl name = some decl → vars ⊆ e.interpretation.state.env.keys →
      Runs (fun e => vars ⊆ e.interpretation.state.env.keys) (step decl e))
    (selectExpr : SelectExpression)
    (declared : ∀ c ∈ selectExpr.selectCases, ∃ decl, p.findDecl c.state = some decl)
    (closed : Closed vars selectExpr) (e : ParserExecution)
    (defined : vars ⊆ e.interpretation.state.env.keys) :
    Runs (fun e => vars ⊆ e.interpretation.state.env.keys)
      (processSelectExpression p step selectExpr e) := by
  obtain ⟨selectKeyExpr, i, resolved, unchanged, -⟩ := resolveComponents_unchanged selectExpr.select
    (closed.1.mono fun e => resolveExpression_resolves e) e.interpretation defined
  refine .implemented resolved ?_
  refine .bind (selectCases_runs steps _ declared closed.2 none ⟨i, e.visitedParserIds⟩
    fun x mem => unchanged.mem_keys.mpr (defined mem)) fun r kept x mem => ?_
  have same := ExecutionState.keys_foldl_merge r.2 r.1.interpretation.state
  exact same ▸ kept mem

end Cases

/-- The interpreter finishes, or reports a loop. -/
def Stops (r : Except ParserFailure ParserExecution) : Prop :=
  (∃ e, r = .ok e) ∨ ∃ state, r = .error (.alreadyVisited state)

theorem stops_or_unimplemented {r : Except ParserFailure ParserExecution}
    (h : r ≠ .error .outOfFuel) : Stops r ∨ r = .error .unimplemented := by
  cases r with
  | ok e => exact .inl (.inl ⟨e, rfl⟩)
  | error failure =>
    cases failure with
    | alreadyVisited state => exact .inl (.inr ⟨state, rfl⟩)
    | unimplemented => exact .inr rfl
    | outOfFuel => exact absurd rfl h

theorem edge_of_byDefault {v v' : Visit} (h : p.ByDefault v v') :
    p.Edge v.state v'.state := by
  cases h with
  | mk found final transition finished default =>
    obtain ⟨c, first, rfl⟩ := Option.map_eq_some_iff.mp default
    exact edge_of_select found final transition (List.mem_of_find?_eq_some first)

/-- A parser without cycles does not loop. -/
theorem not_loopsByDefault (acyclic : Paths.Acyclic p.Edge) (visited : List Int) :
    ¬p.LoopsByDefault visited := fun ⟨v, _, loop⟩ =>
  acyclic v.state (loop.lift Visit.state fun _ _ => edge_of_byDefault)

section Graph

variable [GenEq]

theorem preorder_mirrors (fuel : Nat) {name : String} {state : ParserState ε}
    (found : p.findDecl name = some state) (e : ParserExecution) :
    Mirrors (preorder p externs fuel state e) (p.traverse fuel ⟨e.visitedParserIds, name⟩) := by
  induction fuel generalizing name state e with
  | zero => exact .error _
  | succ fuel ih =>
    cases final : state.isFinal with
    | true =>
      rw [preorder, if_pos final, P4Parser.traverse_final found final]
      exact .ok e
    | false =>
      rw [preorder, if_neg (by simp [final])]
      refine .implemented fun i _ => ?_
      cases transition : state.selectExpression with
      | select selectExpr =>
        rw [P4Parser.traverse_select found final transition]
        exact processSelectExpression_mirrors (fun name decl e found => ih found e) selectExpr _
      | path target =>
        rw [P4Parser.traverse_path found final transition]
        refine .implemented fun decl foundTarget => ?_
        refine mirrors_unvisited (e := { e with interpretation := i }) foundTarget ?_
        rw [enter_of_findDecl foundTarget]
        exact ih foundTarget _

/-- The interpreter goes through the states as the visits without it do, as long as it has rules for
what it meets. -/
theorem parse_mirrors (p : P4Parser ε) (externs : ε → Interpretation → Option Interpretation)
    (fuel : Nat) (e : ParserExecution) :
    Mirrors (parse p externs fuel e) (p.traverse fuel (p.enter e.visitedParserIds "start")) := by
  refine .implemented fun start found => ?_
  rw [enter_of_findDecl found]
  exact preorder_mirrors fuel found (e.addParserId start.cloneId)

theorem preorder_runs (run : ExternsRun vars externs) (supported : SupportedParser vars p)
    (fuel : Nat) {name : String} {state : ParserState ε} (found : p.findDecl name = some state)
    (e : ParserExecution) (defined : vars ⊆ e.interpretation.state.env.keys) :
    Runs (fun e => vars ⊆ e.interpretation.state.env.keys) (preorder p externs fuel state e) := by
  induction fuel generalizing name state e with
  | zero => exact ParserFailure.noConfusion
  | succ fuel ih =>
    cases final : state.isFinal with
    | true =>
      rw [preorder, if_pos final]
      exact defined
    | false =>
      have mem : state ∈ p.states := List.mem_of_find?_eq_some found
      obtain ⟨i, ran, kept⟩ := components_run run state.components
        (supported.components state mem final) e.interpretation defined
      rw [preorder, if_neg (by simp [final])]
      refine .implemented ran ?_
      cases transition : state.selectExpression with
      | select selectExpr =>
        refine processSelectExpression_runs (fun name decl e found => ih found e) selectExpr ?_
          (supported.closed state mem final selectExpr transition) _ kept
        exact fun c mem => supported.declared name c.state (edge_of_select found final transition mem)
      | path target =>
        obtain ⟨decl, foundTarget⟩ := supported.declared name target
          (edge_of_enters (enters_of_path found final transition))
        refine .implemented foundTarget ?_
        split
        · exact ParserFailure.noConfusion
        · exact ih foundTarget _ kept

/-- Where the interpreter has rules, it runs out of fuel as the visits without it do. -/
theorem parse_outOfFuel_iff (run : ExternsRun vars externs) (supported : SupportedParser vars p)
    {start : ParserState ε} (found : p.findDecl "start" = some start) (e : ParserExecution)
    (defined : vars ⊆ e.interpretation.state.env.keys) (fuel : Nat) :
    Stops (parse p externs fuel e) ↔
      p.traverse fuel (p.enter e.visitedParserIds "start") ≠ .error .outOfFuel := by
  have runs : Runs (fun e => vars ⊆ e.interpretation.state.env.keys) (parse p externs fuel e) :=
    .implemented found (preorder_runs run supported fuel found _ defined)
  obtain fails | same := parse_mirrors p externs fuel e
  · rw [fails] at runs
    exact absurd rfl runs
  · rw [← same]
    constructor
    · rintro (⟨e', h⟩ | ⟨state, h⟩) out <;> rw [h] at out <;> cases out
    · intro enough
      have inTime : parse p externs fuel e ≠ .error .outOfFuel := fun out => enough (by rw [out]; rfl)
      obtain h | fails := stops_or_unimplemented inTime
      · exact h
      · rw [fails] at runs
        exact absurd rfl runs

/-- The interpreter stops on every parser but those in which, from the start state, it reaches a
state from which default cases alone lead back to it. -/
theorem parse_stops (p : P4Parser ε) (externs : ε → Interpretation → Option Interpretation)
    (e : ParserExecution) :
    (¬p.LoopsByDefault e.visitedParserIds → ∃ n, ∀ fuel ≥ n,
      Stops (parse p externs fuel e) ∨ parse p externs fuel e = .error .unimplemented) ∧
    ∀ vars start, ExternsRun vars externs → SupportedParser vars p →
      p.findDecl "start" = some start → vars ⊆ e.interpretation.state.env.keys →
        ((∃ n, ∀ fuel ≥ n, Stops (parse p externs fuel e)) ↔
          ¬p.LoopsByDefault e.visitedParserIds) := by
  refine ⟨fun straight => ?_, fun vars start run supported found defined => ?_⟩
  · obtain ⟨n, halts⟩ := P4Parser.halts_iff.mpr straight
    refine ⟨n, fun fuel enough => stops_or_unimplemented fun out => halts ?_⟩
    obtain fails | same := parse_mirrors p externs fuel e
    · rw [out] at fails
      cases fails
    · rw [← P4Parser.traverse_mono halts enough, ← same, out]
      rfl
  · simp only [parse_outOfFuel_iff run supported found e defined]
    refine Iff.trans ⟨?_, ?_⟩ P4Parser.halts_iff
    · exact fun ⟨n, halts⟩ => ⟨n, halts n le_rfl⟩
    · exact fun ⟨n, halts⟩ =>
        ⟨n, fun fuel enough => by rwa [P4Parser.traverse_mono halts enough]⟩

end Graph

section Examples

attribute [local instance] genEq

/-- The default case of the start state leads back to it. -/
def loopingParser : P4Parser Unit where
  states :=
    [⟨"start", 1, [], .select ⟨[.bit 8], .cons (.path 21 "field" (.bit 8)) .nil,
        [⟨.components (.cons (.expression (.lit (1 : BitVec 8))) .nil), "accept"⟩,
          ⟨.default, "start"⟩]⟩⟩,
      parserState "accept" 2 [] "accept", parserState "reject" 3 [] "reject"]

theorem loopingParser_edge {a b : String} (h : loopingParser.Edge a b) :
    a = "start" ∧ (b = "accept" ∨ b = "start") := by
  obtain ⟨state, found, final, mem⟩ := h
  have named := name_of_findDecl found
  have listed := List.mem_of_find?_eq_some found
  simp only [loopingParser, List.mem_cons, List.not_mem_nil, or_false] at listed
  obtain rfl | rfl | rfl := listed
  · subst named
    simpa [Transition.targets] using mem
  · cases final
  · cases final

theorem loopingParser_supported : SupportedParser [⟨"field", .bit 8⟩] loopingParser where
  components := by simp [loopingParser, parserState]
  closed := by
    simp [loopingParser, parserState, Closed, Components.Forall, ProgramExpr.reads, Keyset.Closed,
      KeysetComponent.reads]
  declared := by
    intro a b edge
    obtain ⟨-, rfl | rfl⟩ := loopingParser_edge edge <;> exact ⟨_, rfl⟩

theorem loopingParser_loops :
    Relation.TransGen loopingParser.ByDefault (loopingParser.enter [] "start")
      (loopingParser.enter [] "start") := by
  refine .single (.mk rfl rfl rfl ?_ rfl)
  intro c mem
  obtain rfl := List.mem_singleton.mp mem
  exact ⟨by decide, .final rfl rfl⟩

theorem extractField_runs (vars : List StateVariable) : ExternsRun vars extractField := by
  intro call i defined
  obtain ⟨i', ran, follows⟩ := extractField_follows vars call i defined
  exact ⟨i', ran, List.Subset.trans defined follows.keys⟩

/-- The interpreter visits the start state for ever. -/
theorem parse_loopingParser :
    ¬∃ fuel, Stops (parse loopingParser extractField fuel ⟨fieldState, []⟩) := by
  rintro ⟨fuel, stops⟩
  refine (parse_outOfFuel_iff (extractField_runs [⟨"field", .bit 8⟩]) loopingParser_supported rfl
    ⟨fieldState, []⟩ (List.Subset.refl _) fuel).mp stops ?_
  exact P4Parser.outOfFuel_of_loop loopingParser_loops fuel

theorem parse_stops_fieldParser :
    (∃ n, ∀ fuel ≥ n, Stops (parse fieldParser extractField fuel ⟨fieldState, []⟩)) ∧
      ¬∃ n, ∀ fuel ≥ n, Stops (parse loopingParser extractField fuel ⟨fieldState, []⟩) := by
  constructor
  · exact ((parse_stops fieldParser extractField ⟨fieldState, []⟩).2 _ _ (extractField_runs _)
      fieldParser_supported rfl (List.Subset.refl _)).mpr
        (not_loopsByDefault fieldParser_acyclic [])
  · intro stops
    exact ((parse_stops loopingParser extractField ⟨fieldState, []⟩).2 _ _ (extractField_runs _)
      loopingParser_supported rfl (List.Subset.refl _)).mp stops ⟨_, .refl, loopingParser_loops⟩

end Examples

end ParserStepper

end Flay
