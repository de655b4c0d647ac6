import Flay.Lib.Acyclic
import Flay.Lib.Walks
import Mathlib.Algebra.Order.BigOperators.Group.List
import Mathlib.Data.Fintype.Card

/-! `ParserPathsCounter`: the number of paths through the states of a parser, by a depth-first search
that marks the states in progress in the table of its results. -/

namespace Flay

open Paths

/-- What a vertex of the call graph of a program stands for. -/
inductive DCGVertex
  | parserState (name : String)
  | control
  | other
deriving DecidableEq

/-- The result where the search goes no further: `accept` and `reject` end a path, and a control block
does not count as an end of a parser. -/
def DCGVertex.result : DCGVertex → Option UInt64
  | .parserState name => if name = "accept" ∨ name = "reject" then some 1 else none
  | .control => some 0
  | .other => none

/-- The call graph of a program, which is not built in the repository. -/
structure NodesCallGraph (V : Type) where
  vertex : V → DCGVertex
  outEdges : V → List V

namespace NodesCallGraph

variable {V : Type} (dcg : NodesCallGraph V)

/-- A path is the sequence of the edges that it takes, up to `accept` or `reject`. -/
def graph : Graph V where
  targets := dcg.outEdges
  Ends v := (dcg.vertex v).result = some 1
  Inner v := (dcg.vertex v).result = none
  disjoint v inner ends := by rw [inner] at ends; cases ends

/-- The edges that the search takes, which ends at a vertex with a result. -/
def Follows (v w : V) : Prop := dcg.graph.Inner v ∧ w ∈ dcg.outEdges v

/-- The edges that the search meets from a vertex on. -/
def FollowsFrom (startState v w : V) : Prop :=
  Relation.ReflTransGen dcg.Follows startState v ∧ dcg.Follows v w

end NodesCallGraph

namespace ParserPathsCounter

section Code

variable {V : Type} [DecidableEq V] (dcg : NodesCallGraph V)

/-- The number of paths to the end from each vertex. -/
abbrev NumPaths (V : Type) : Type := V → Option UInt64

def visitingFlag : UInt64 := -1

def assign (numPaths : NumPaths V) (node : V) (count : UInt64) : NumPaths V :=
  fun v => if v = node then some count else numPaths v

/-- The loop over the targets of a vertex, which ends without a count at one that is marked. -/
def countTargets (visit : V → NumPaths V → Option (UInt64 × NumPaths V)) :
    List V → UInt64 → NumPaths V → Option (Option UInt64 × NumPaths V)
  | [], count, numPaths => some (some count, numPaths)
  | target :: targets, count, numPaths =>
    if numPaths target = some visitingFlag then some (none, numPaths)
    else do
      let (n, numPaths) ← visit target numPaths
      countTargets visit targets (count + n) numPaths

/-- `countPathsSub`, for at most the given number of calls within one another. -/
def countPathsSub : Nat → V → NumPaths V → Option (UInt64 × NumPaths V)
  | 0, _, _ => none
  | fuel + 1, node, numPaths =>
    match (dcg.vertex node).result with
    | some result => some (result, numPaths)
    | none =>
      match numPaths node with
      | some count => some (count, numPaths)
      | none =>
        if dcg.outEdges node = [] then none
        else do
          let (count, numPaths) ←
            countTargets (countPathsSub fuel) (dcg.outEdges node) 0 (assign numPaths node visitingFlag)
          match count with
          | none => some (0, numPaths)
          | some count => some (count, assign numPaths node count)

/-- `countPaths` of the parser with the start state. -/
def countPaths (fuel : Nat) (startState : V) : Option UInt64 :=
  (countPathsSub dcg fuel startState fun _ => none).map Prod.fst

/-! ### The states that are given up -/

/-- The vertices that are given up in the loop over the targets of a vertex. -/
def abandonedTargets (visit : V → NumPaths V → Option (UInt64 × NumPaths V))
    (abandoned : V → NumPaths V → List V) : List V → NumPaths V → List V
  | [], _ => []
  | target :: targets, numPaths =>
    if numPaths target = some visitingFlag then []
    else
      abandoned target numPaths ++
        match visit target numPaths with
        | none => []
        | some (_, numPaths) => abandonedTargets visit abandoned targets numPaths

/-- The vertices whose visit meets a target that is marked, in progress or given up itself. -/
def abandonedSub : Nat → V → NumPaths V → List V
  | 0, _, _ => []
  | fuel + 1, node, numPaths =>
    if (dcg.vertex node).result = none ∧ numPaths node = none then
      let marked := assign numPaths node visitingFlag
      abandonedTargets (countPathsSub dcg fuel) (abandonedSub fuel) (dcg.outEdges node) marked ++
        match countTargets (countPathsSub dcg fuel) (dcg.outEdges node) 0 marked with
        | some (none, _) => [node]
        | _ => []
    else []

def abandoned (fuel : Nat) (startState : V) : List V := abandonedSub dcg fuel startState fun _ => none

end Code

section Search

variable {V : Type} {dcg : NodesCallGraph V} {visiting left left' done done' : Set V}
  {numPaths numPaths' : NumPaths V} {node : V}

@[simp] theorem assign_self [DecidableEq V] {count : UInt64} :
    assign numPaths node count node = some count := by
  simp [assign]

theorem assign_ne [DecidableEq V] {count : UInt64} {v : V} (different : v ≠ node) :
    assign numPaths node count v = numPaths v := by
  simp [assign, different]

open Walk

/-- How far a search has got: which vertices it is visiting, has left without a count and has counted. -/
structure Progress (dcg : NodesCallGraph V) (visiting left done : Set V) (numPaths : NumPaths V) :
    Prop where
  marked : ∀ v, v ∈ visiting ∨ v ∈ left → numPaths v = some visitingFlag
  known : ∀ v count, numPaths v = some count → v ∈ visiting ∨ v ∈ left ∨ v ∈ done
  counted : ∀ v ∈ done, ∃ count, numPaths v = some count ∧
    count.toNat = Walk.count dcg.graph done v % 2 ^ 64
  visiting : ∀ v ∈ done, v ∉ visiting
  closed : Closed dcg.graph done left
  ranked : ∃ rank, Ranked dcg.graph done rank

/-- Nothing is marked or counted at the start. -/
theorem Progress.fresh : Progress dcg ∅ ∅ ∅ fun _ : V => none := by
  refine ⟨?_, ?_, ?_, ?_, ⟨?_, ?_⟩, ⟨fun _ => 0, ?_, ?_⟩⟩ <;> simp

theorem Progress.not_mem_done (progress : Progress dcg visiting left done numPaths)
    (new : numPaths node = none) : node ∉ done := fun mem => by
  obtain ⟨count, found, -⟩ := progress.counted node mem
  rw [new] at found
  cases found

theorem Progress.not_mem_marked (progress : Progress dcg visiting left done numPaths)
    (new : numPaths node = none) : ¬(node ∈ visiting ∨ node ∈ left) := fun mem => by
  have marked := progress.marked node mem
  rw [new] at marked
  cases marked

/-- A vertex is marked before its targets are looked at. -/
theorem Progress.mark [DecidableEq V] (progress : Progress dcg visiting left done numPaths)
    (new : numPaths node = none) :
    Progress dcg (insert node visiting) left done (assign numPaths node visitingFlag) where
  marked v mem := by
    by_cases same : v = node
    · rw [same, assign_self]
    · rw [assign_ne same]
      exact progress.marked v (mem.imp_left fun mem => mem.resolve_left same)
  known v count found := by
    by_cases same : v = node
    · exact .inl (.inl same)
    · rw [assign_ne same] at found
      exact (progress.known v count found).imp_left .inr
  counted v mem := by
    have different : v ≠ node := fun same => progress.not_mem_done new (same ▸ mem)
    rw [assign_ne different]
    exact progress.counted v mem
  visiting v mem := by
    rintro (same | visited)
    · exact progress.not_mem_done new (same ▸ mem)
    · exact progress.visiting v mem visited
  closed := progress.closed
  ranked := progress.ranked

/-- A vertex is left without a count. -/
theorem Progress.leave (progress : Progress dcg (insert node visiting) left done numPaths) :
    Progress dcg visiting (insert node left) done numPaths where
  marked v mem := by
    refine progress.marked v ?_
    obtain mem | rfl | mem := mem
    · exact .inl (.inr mem)
    · exact .inl (.inl rfl)
    · exact .inr mem
  known v count found := by
    obtain (rfl | mem) | mem | mem := progress.known v count found
    · exact .inr (.inl (.inl rfl))
    · exact .inl mem
    · exact .inr (.inl (.inr mem))
    · exact .inr (.inr mem)
  counted := progress.counted
  visiting v mem visited := progress.visiting v mem (.inr visited)
  closed := by
    refine ⟨fun v mem => ?_, fun v mem w target inner => ?_⟩
    · rintro (rfl | memLeft)
      · exact progress.visiting v mem (.inl rfl)
      · exact progress.closed.disjoint v mem memLeft
    · exact (progress.closed.targets v mem w target inner).imp_right .inr
  ranked := progress.ranked

/-- A vertex whose targets are settled extends the set along whose edges a rank descends. -/
theorem exists_ranked_insert (ranked : ∃ rank, Ranked dcg.graph done rank)
    (closed : Closed dcg.graph done left) (inner : dcg.graph.Inner node) (new : node ∉ done)
    (notLeft : node ∉ left) (loopless : node ∉ dcg.graph.targets node) :
    ∃ rank, Ranked dcg.graph (insert node done) rank := by
  classical
  obtain ⟨rank, inners, descends⟩ := ranked
  refine ⟨fun v => if v = node then ((dcg.graph.targets node).map rank).sum + 1 else rank v, ?_, ?_⟩
  · rintro v (rfl | mem)
    · exact inner
    · exact inners v mem
  · rintro v (rfl | mem) w target memW
    · have different : w ≠ v := fun same => loopless (same ▸ target)
      rw [if_pos rfl, if_neg different]
      exact Nat.lt_succ_of_le (List.le_sum_of_mem (List.mem_map_of_mem target))
    · have other : v ≠ node := fun same => new (same ▸ mem)
      have different : w ≠ node := by
        rintro rfl
        obtain memW | memW := closed.targets v mem w target inner
        · exact new memW
        · exact notLeft memW
      rw [if_neg other, if_neg different]
      exact descends v mem w target (memW.resolve_left different)

/-- A vertex is counted once all its targets are settled. -/
theorem Progress.finish [DecidableEq V]
    (progress : Progress dcg (insert node visiting) left done numPaths)
    (notVisiting : node ∉ visiting) (notLeft : node ∉ left) (inner : dcg.graph.Inner node)
    (settled : ∀ w ∈ dcg.graph.targets node, Settled dcg.graph done left w) {count : UInt64}
    (counted : count.toNat =
      ((dcg.graph.targets node).map (Walk.count dcg.graph done)).sum % 2 ^ 64) :
    Progress dcg visiting left (insert node done) (assign numPaths node count) := by
  have new : node ∉ done := fun mem => progress.visiting node mem (.inl rfl)
  have disjoint : ∀ v ∈ insert node done, v ∉ left := by
    rintro v (rfl | mem)
    · exact notLeft
    · exact progress.closed.disjoint v mem
  have same : ∀ {v}, Settled dcg.graph done left v →
      Walk.count dcg.graph done v = Walk.count dcg.graph (insert node done) v :=
    Walk.count_congr progress.closed (Set.subset_insert node done) disjoint
  have loopless : node ∉ dcg.graph.targets node := fun target =>
    (settled node target inner).elim new notLeft
  have ranked := exists_ranked_insert progress.ranked progress.closed inner new notLeft loopless
  constructor
  · intro v mem
    rw [assign_ne]
    · exact progress.marked v (mem.imp_left .inr)
    · rintro rfl
      exact mem.elim notVisiting notLeft
  · intro v n found
    by_cases self : v = node
    · exact .inr (.inr (.inl self))
    · rw [assign_ne self] at found
      obtain mem | mem | mem := progress.known v n found
      · exact .inl (mem.resolve_left self)
      · exact .inr (.inl mem)
      · exact .inr (.inr (.inr mem))
  · rintro v (rfl | mem)
    · refine ⟨count, assign_self, ?_⟩
      obtain ⟨rank, ranked⟩ := ranked
      rw [counted, count_step ranked (Set.mem_insert v done)]
      exact congrArg (fun l => List.sum l % 2 ^ 64)
        (List.map_congr_left fun w mem => same (settled w mem))
    · obtain ⟨n, found, value⟩ := progress.counted v mem
      have different : v ≠ node := fun self => new (self ▸ mem)
      refine ⟨n, ?_, ?_⟩
      · rw [assign_ne different]
        exact found
      · rw [value, same fun _ => .inl mem]
  · rintro v (rfl | mem) visited
    · exact notVisiting visited
    · exact progress.visiting v mem (.inr visited)
  · refine ⟨disjoint, ?_⟩
    rintro v (rfl | mem) w target innerW
    · exact (settled w target innerW).imp_left .inr
    · exact (progress.closed.targets v mem w target innerW).imp_left .inr
  · exact ranked

theorem union_append (l l' : List V) :
    left ∪ {v | v ∈ l ++ l'} = left ∪ {v | v ∈ l} ∪ {v | v ∈ l'} := by
  ext v
  simp [or_assoc]

/-- How far a search gets that gives up the vertices of a list. -/
structure Reaches (dcg : NodesCallGraph V) (visiting left done : Set V) (numPaths : NumPaths V)
    (abandoned : List V) (done' : Set V) (numPaths' : NumPaths V) : Prop where
  progress : Progress dcg visiting (left ∪ {v | v ∈ abandoned}) done' numPaths'
  done : done ⊆ done'
  fresh : ∀ v ∈ abandoned, numPaths v = none

theorem Reaches.refl (progress : Progress dcg visiting left done numPaths) :
    Reaches dcg visiting left done numPaths [] done numPaths where
  progress := by simpa using progress
  done := subset_rfl
  fresh _ mem := nomatch mem

/-- A vertex without a result had none before. -/
theorem Reaches.new_before {l : List V}
    (reaches : Reaches dcg visiting left done numPaths l done' numPaths')
    (progress : Progress dcg visiting left done numPaths) {v : V} (new : numPaths' v = none) :
    numPaths v = none := by
  cases found : numPaths v with
  | none => rfl
  | some count =>
    obtain mem | mem | mem := progress.known v count found
    · exact absurd (reaches.progress.marked v (.inl mem)) (by simp [new])
    · exact absurd (reaches.progress.marked v (.inr (.inl mem))) (by simp [new])
    · obtain ⟨count', found', -⟩ := reaches.progress.counted v (reaches.done mem)
      exact absurd found' (by simp [new])

theorem Reaches.trans {l l' : List V} {done'' : Set V} {numPaths'' : NumPaths V}
    (progress : Progress dcg visiting left done numPaths)
    (first : Reaches dcg visiting left done numPaths l done' numPaths')
    (second : Reaches dcg visiting (left ∪ {v | v ∈ l}) done' numPaths' l' done'' numPaths'') :
    Reaches dcg visiting left done numPaths (l ++ l') done'' numPaths'' where
  progress := by
    rw [union_append]
    exact second.progress
  done := first.done.trans second.done
  fresh v mem := (List.mem_append.mp mem).elim (first.fresh v) fun mem =>
    first.new_before progress (second.fresh v mem)

/-- A settled vertex stays so, and has the same walks. -/
theorem Reaches.settled {l : List V}
    (reaches : Reaches dcg visiting left done numPaths l done' numPaths')
    {v : V} (settled : Settled dcg.graph done left v) :
    Settled dcg.graph done' (left ∪ {v | v ∈ l}) v :=
  fun inner => (settled inner).imp (fun mem => reaches.done mem) .inl

theorem Reaches.count_congr {l : List V}
    (reaches : Reaches dcg visiting left done numPaths l done' numPaths')
    (progress : Progress dcg visiting left done numPaths) {v : V}
    (settled : Settled dcg.graph done left v) :
    Walk.count dcg.graph done v = Walk.count dcg.graph done' v :=
  Walk.count_congr progress.closed reaches.done
    (fun w mem memLeft => reaches.progress.closed.disjoint w mem (.inl memLeft)) settled

/-- What a visit of a vertex that is not marked does: it settles the vertex, and what it returns is
the number of walks within what is counted. -/
def Visits (dcg : NodesCallGraph V) (visit : V → NumPaths V → Option (UInt64 × NumPaths V))
    (abandoned : V → NumPaths V → List V) : Prop :=
  ∀ visiting left done numPaths node n numPaths', Progress dcg visiting left done numPaths →
    numPaths node ≠ some visitingFlag → visit node numPaths = some (n, numPaths') →
      ∃ done', Reaches dcg visiting left done numPaths (abandoned node numPaths) done' numPaths' ∧
        Settled dcg.graph done' (left ∪ {v | v ∈ abandoned node numPaths}) node ∧
        n.toNat = Walk.count dcg.graph done' node % 2 ^ 64

theorem countTargets_reaches {visit : V → NumPaths V → Option (UInt64 × NumPaths V)}
    {abandoned : V → NumPaths V → List V} (visits : Visits dcg visit abandoned) (l : List V)
    (left done : Set V) (numPaths : NumPaths V) (count : UInt64) (r : Option UInt64)
    (numPaths' : NumPaths V) (progress : Progress dcg visiting left done numPaths)
    (ran : countTargets visit l count numPaths = some (r, numPaths')) :
    ∃ done', Reaches dcg visiting left done numPaths (abandonedTargets visit abandoned l numPaths) done'
        numPaths' ∧
      ∀ n, r = some n →
        (∀ w ∈ l, Settled dcg.graph done'
          (left ∪ {v | v ∈ abandonedTargets visit abandoned l numPaths}) w) ∧
        n.toNat = (count.toNat + (l.map (Walk.count dcg.graph done')).sum) % 2 ^ 64 := by
  induction l generalizing left done numPaths count with
  | nil =>
    cases ran
    refine ⟨done, .refl progress, ?_⟩
    rintro n ⟨⟩
    refine ⟨fun _ mem => (nomatch mem), ?_⟩
    simp
  | cons target l ih =>
    rw [countTargets] at ran
    rw [abandonedTargets]
    split at ran
    · rename_i marked
      cases ran
      rw [if_pos marked]
      exact ⟨done, .refl progress, fun n h => by cases h⟩
    · rename_i unmarked
      rw [if_neg unmarked]
      cases visited : visit target numPaths with
      | none =>
        rw [visited] at ran
        cases ran
      | some next =>
        obtain ⟨n₁, numPaths₁⟩ := next
        rw [visited] at ran
        obtain ⟨done₁, reaches₁, settled₁, value₁⟩ :=
          visits visiting left done numPaths target n₁ numPaths₁ progress unmarked visited
        obtain ⟨done₂, reaches₂, rest⟩ := ih _ done₁ numPaths₁ (count + n₁) reaches₁.progress ran
        have reaches := reaches₁.trans progress reaches₂
        refine ⟨done₂, reaches, fun n found => ?_⟩
        obtain ⟨settled₂, value₂⟩ := rest n found
        have first := reaches₂.settled settled₁
        rw [← union_append] at settled₂ first
        refine ⟨List.forall_mem_cons.mpr ⟨first, settled₂⟩, ?_⟩
        rw [value₂, UInt64.toNat_add, value₁, reaches₂.count_congr reaches₁.progress settled₁,
          List.map_cons, List.sum_cons]
        omega

theorem count_of_result {s : Set V} {result : UInt64} (found : (dcg.vertex node).result = some result) :
    result.toNat = Walk.count dcg.graph s node := by
  have values : result = 1 ∨ result = 0 := by
    cases vertex : dcg.vertex node with
    | parserState name =>
      rw [vertex, DCGVertex.result] at found
      split at found <;> cases found
      exact .inl rfl
    | control =>
      rw [vertex] at found
      exact .inr (Option.some.inj found).symm
    | other =>
      rw [vertex] at found
      cases found
  obtain rfl | rfl := values
  · exact (count_ends found).symm
  · have := isEmpty_of_outer (g := dcg.graph) (v := node)
      (fun ends => absurd (found.symm.trans ends) (by decide))
      (fun inner => absurd (found.symm.trans inner) (by simp))
    rw [Walk.count, Nat.card_of_isEmpty]
    rfl

section Visit

variable [DecidableEq V] {l : List V}

/-- What is found fresh after a vertex is marked was so before, and is not the vertex. -/
theorem Reaches.fresh_of_mark
    (reaches : Reaches dcg (insert node visiting) left done (assign numPaths node visitingFlag) l done'
      numPaths') {v : V} (mem : v ∈ l) : v ≠ node ∧ numPaths v = none := by
  have fresh := reaches.fresh v mem
  have different : v ≠ node := by
    rintro rfl
    rw [assign_self] at fresh
    cases fresh
  rw [assign_ne different] at fresh
  exact ⟨different, fresh⟩

/-- The vertex is given up after its targets. -/
theorem Reaches.leave (new : numPaths node = none)
    (reaches : Reaches dcg (insert node visiting) left done (assign numPaths node visitingFlag) l done'
      numPaths') :
    Reaches dcg visiting left done numPaths (l ++ [node]) done' numPaths' where
  progress := by
    have single : left ∪ {v | v ∈ l} ∪ {v | v ∈ [node]} = insert node (left ∪ {v | v ∈ l}) := by
      ext v
      simp [or_comm]
    rw [union_append, single]
    exact reaches.progress.leave
  done := reaches.done
  fresh v mem := by
    obtain mem | mem := List.mem_append.mp mem
    · exact (reaches.fresh_of_mark mem).2
    · rw [List.mem_singleton.mp mem]
      exact new

/-- The vertex is counted after its targets. -/
theorem Reaches.finish (progress : Progress dcg visiting left done numPaths)
    (new : numPaths node = none) (inner : dcg.graph.Inner node)
    (reaches : Reaches dcg (insert node visiting) left done (assign numPaths node visitingFlag) l done'
      numPaths')
    (settled : ∀ w ∈ dcg.outEdges node, Settled dcg.graph done' (left ∪ {v | v ∈ l}) w) {count : UInt64}
    (counted : count.toNat =
      ((dcg.outEdges node).map (Walk.count dcg.graph done')).sum % 2 ^ 64) :
    Reaches dcg visiting left done numPaths l (insert node done') (assign numPaths' node count) where
  progress := by
    have notMarked := progress.not_mem_marked new
    refine reaches.progress.finish (fun mem => notMarked (.inl mem)) ?_ inner settled counted
    rintro (mem | mem)
    · exact notMarked (.inr mem)
    · exact (reaches.fresh_of_mark mem).1 rfl
  done := reaches.done.trans (Set.subset_insert node done')
  fresh v mem := (reaches.fresh_of_mark mem).2

theorem countPathsSub_visits (fuel : Nat) :
    Visits dcg (countPathsSub dcg fuel) (abandonedSub dcg fuel) := by
  induction fuel with
  | zero => exact fun _ _ _ _ _ _ _ _ _ ran => nomatch ran
  | succ fuel ih =>
    intro visiting left done numPaths node n numPaths' progress unmarked ran
    rw [countPathsSub] at ran
    rw [abandonedSub]
    cases result : (dcg.vertex node).result with
    | some value =>
      rw [result] at ran
      cases ran
      rw [if_neg (by simp)]
      refine ⟨done, .refl progress, fun inner => ?_, ?_⟩
      · exact absurd (result.symm.trans inner) (by simp)
      · rw [← count_of_result result, Nat.mod_eq_of_lt n.toNat_lt]
    | none =>
      simp only [result] at ran
      cases known : numPaths node with
      | some count =>
        rw [known] at ran unmarked
        cases ran
        rw [if_neg (by simp)]
        obtain mem | mem | mem := progress.known node n known
        · exact absurd ((known.symm.trans (progress.marked node (.inl mem)))) unmarked
        · exact absurd ((known.symm.trans (progress.marked node (.inr mem)))) unmarked
        · obtain ⟨count, found, value⟩ := progress.counted node mem
          cases known.symm.trans found
          exact ⟨done, .refl progress, fun _ => .inl mem, value⟩
      | none =>
        simp only [known] at ran
        rw [if_pos ⟨rfl, rfl⟩]
        split at ran
        · cases ran
        dsimp only
        cases loop : countTargets (countPathsSub dcg fuel) (dcg.outEdges node) 0
            (assign numPaths node visitingFlag) with
        | none =>
          rw [loop] at ran
          cases ran
        | some looped =>
          obtain ⟨count, numPaths₁⟩ := looped
          rw [loop] at ran
          obtain ⟨done₁, reaches, rest⟩ :=
            countTargets_reaches ih _ _ _ _ _ _ _ (progress.mark known) loop
          cases count with
          | none =>
            cases ran
            refine ⟨done₁, reaches.leave known, fun _ => .inr (.inr (by simp)), ?_⟩
            rw [count_outside (fun ends => absurd (result.symm.trans ends) (by simp))
              fun mem => reaches.progress.visiting node mem (.inl rfl)]
            rfl
          | some count =>
            cases ran
            obtain ⟨settled, value⟩ := rest _ rfl
            have finished := reaches.finish progress known result settled (by simpa using value)
            dsimp only
            rw [List.append_nil]
            obtain ⟨n, found, value⟩ := finished.progress.counted node (.inl rfl)
            rw [assign_self] at found
            cases found
            exact ⟨_, finished, fun _ => .inl (.inl rfl), value⟩

/-- What `countPaths` returns is the number of the paths that visit no vertex twice and none that is
given up, up to the size of the type. -/
theorem countPaths_eq {fuel : Nat} {startState : V} {r : UInt64}
    (ran : countPaths dcg fuel startState = some r) :
    r.toNat = Nat.card {p : Walk dcg.graph startState //
      p.LoopFree ∧ ∀ v ∈ p.vertices, v ∉ abandoned dcg fuel startState} % 2 ^ 64 := by
  obtain ⟨⟨r, numPaths⟩, visited, rfl⟩ := Option.map_eq_some_iff.mp ran
  obtain ⟨done, reaches, settled, value⟩ :=
    countPathsSub_visits fuel ∅ ∅ ∅ _ startState r numPaths .fresh (by simp) visited
  obtain ⟨rank, ranked⟩ := reaches.progress.ranked
  rw [value, Walk.count]
  refine congrArg (· % 2 ^ 64) (Nat.card_congr (Equiv.subtypeEquivRight fun p => ?_))
  simpa [abandoned] using within_iff ranked reaches.progress.closed settled p

/-! ### Graphs without a cycle -/

section Acyclic

/-- The vertices of a region from which the search descends, with no number of paths that reads as a
mark. -/
structure Descends (dcg : NodesCallGraph V) (region : Set V) (rank : V → Nat) : Prop where
  targets : ∀ v ∈ region, dcg.graph.Inner v → ∀ w ∈ dcg.outEdges v, w ∈ region ∧ rank w < rank v
  few : ∀ v ∈ region, Nat.card {p : Walk dcg.graph v // p.LoopFree} < visitingFlag.toNat

variable {region : Set V} {rank : V → Nat} [Finite V]

omit [DecidableEq V] in
theorem Progress.count_le (progress : Progress dcg visiting left done numPaths) (v : V) :
    Walk.count dcg.graph done v ≤ Nat.card {p : Walk dcg.graph v // p.LoopFree} := by
  obtain ⟨rank, ranked⟩ := progress.ranked
  have := finite_loopFree (g := dcg.graph) v
  exact card_restriction_le fun p => loopFree_of_within ranked p

omit [DecidableEq V] in
/-- A vertex below those in progress is not marked. -/
theorem Descends.unmarked (descends : Descends dcg region rank)
    (progress : Progress dcg visiting ∅ done numPaths) {v : V} (mem : v ∈ region)
    (below : ∀ w ∈ visiting, rank v < rank w) : numPaths v ≠ some visitingFlag := by
  intro marked
  obtain visited | none | counted := progress.known v visitingFlag marked
  · exact Nat.lt_irrefl _ (below v visited)
  · exact none
  · obtain ⟨count, found, value⟩ := progress.counted v counted
    cases marked.symm.trans found
    have few := (progress.count_le v).trans_lt (descends.few v mem)
    have le := Nat.mod_le (Walk.count dcg.graph done v) (2 ^ 64)
    omega

/-- A visit from below what is in progress gives up no vertex. -/
def GivesUpNone (dcg : NodesCallGraph V) (region : Set V) (rank : V → Nat)
    (abandoned : V → NumPaths V → List V) : Prop :=
  ∀ visiting done numPaths node, Progress dcg visiting ∅ done numPaths → node ∈ region →
    (∀ w ∈ visiting, rank node < rank w) → abandoned node numPaths = []

omit [DecidableEq V] in
theorem abandonedTargets_eq_nil {visit : V → NumPaths V → Option (UInt64 × NumPaths V)}
    {abandoned : V → NumPaths V → List V} (visits : Visits dcg visit abandoned)
    (descends : Descends dcg region rank) (givesUpNone : GivesUpNone dcg region rank abandoned)
    (l : List V) (done : Set V) (numPaths : NumPaths V) (count : UInt64)
    (progress : Progress dcg visiting ∅ done numPaths)
    (below : ∀ w ∈ l, w ∈ region ∧ ∀ v ∈ visiting, rank w < rank v) :
    abandonedTargets visit abandoned l numPaths = [] ∧
      ∀ numPaths', countTargets visit l count numPaths ≠ some (none, numPaths') := by
  induction l generalizing done numPaths count with
  | nil => exact ⟨rfl, fun _ h => nomatch h⟩
  | cons target l ih =>
    obtain ⟨⟨mem, lower⟩, below⟩ := List.forall_mem_cons.mp below
    have unmarked := descends.unmarked progress mem lower
    have nothing := givesUpNone visiting done numPaths target progress mem lower
    rw [abandonedTargets, countTargets, if_neg unmarked, if_neg unmarked, nothing]
    cases visited : visit target numPaths with
    | none => exact ⟨rfl, fun _ h => nomatch h⟩
    | some next =>
      obtain ⟨n, numPaths₁⟩ := next
      obtain ⟨done₁, reaches, -, -⟩ :=
        visits visiting ∅ done numPaths target n numPaths₁ progress unmarked visited
      have progress₁ := reaches.progress
      rw [nothing] at progress₁
      exact ih done₁ numPaths₁ (count + n) (by simpa using progress₁) below

theorem abandonedSub_eq_nil (descends : Descends dcg region rank) (fuel : Nat) :
    GivesUpNone dcg region rank (abandonedSub dcg fuel) := by
  induction fuel with
  | zero => exact fun _ _ _ _ _ _ _ => rfl
  | succ fuel ih =>
    intro visiting done numPaths node progress mem below
    rw [abandonedSub]
    split
    · rename_i fresh
      obtain ⟨inner, new⟩ := fresh
      have targets : ∀ w ∈ dcg.outEdges node,
          w ∈ region ∧ ∀ v ∈ insert node visiting, rank w < rank v := by
        intro w target
        obtain ⟨memTarget, lower⟩ := descends.targets node mem inner w target
        refine ⟨memTarget, ?_⟩
        rintro v (rfl | visited)
        · exact lower
        · exact lower.trans (below v visited)
      obtain ⟨nothing, counted⟩ := abandonedTargets_eq_nil (countPathsSub_visits fuel) descends ih _ _ _
        0 (progress.mark new) targets
      dsimp only
      rw [nothing]
      split
      · rename_i numPaths' looped
        exact absurd looped (counted numPaths')
      · rfl
    · rfl

end Acyclic

section Returns

variable [Fintype V]

/-- The vertices without a result. -/
def unknown (numPaths : NumPaths V) : Finset V := Finset.univ.filter fun v => numPaths v = none

/-- A table that knows what another one does. -/
def Extends (numPaths numPaths' : NumPaths V) : Prop := ∀ v, numPaths' v = none → numPaths v = none

omit [DecidableEq V] in
theorem card_unknown_le (h : Extends numPaths numPaths') :
    (unknown numPaths').card ≤ (unknown numPaths).card :=
  Finset.card_le_card fun v mem => by
    simp only [unknown, Finset.mem_filter] at mem ⊢
    exact ⟨mem.1, h v mem.2⟩

theorem card_unknown_assign (new : numPaths node = none) (count : UInt64) :
    (unknown (assign numPaths node count)).card < (unknown numPaths).card := by
  refine Finset.card_lt_card (Finset.ssubset_iff_of_subset ?_ |>.mpr ⟨node, ?_, ?_⟩)
  · intro v mem
    obtain ⟨-, mem⟩ := Finset.mem_filter.mp mem
    refine Finset.mem_filter.mpr ⟨Finset.mem_univ v, ?_⟩
    by_cases same : v = node
    · rw [same, new]
    · rwa [assign_ne same] at mem
  · simp [unknown, new]
  · simp [unknown]

omit [DecidableEq V] [Fintype V] in
theorem countTargets_returns {visit : V → NumPaths V → Option (UInt64 × NumPaths V)}
    {numPaths₀ : NumPaths V}
    (returns : ∀ v numPaths, Extends numPaths₀ numPaths →
      ∃ n numPaths', visit v numPaths = some (n, numPaths') ∧ Extends numPaths numPaths')
    (l : List V) (count : UInt64) (numPaths : NumPaths V) (extends' : Extends numPaths₀ numPaths) :
    ∃ r numPaths', countTargets visit l count numPaths = some (r, numPaths') ∧
      Extends numPaths numPaths' := by
  induction l generalizing count numPaths with
  | nil => exact ⟨some count, numPaths, rfl, fun _ h => h⟩
  | cons target l ih =>
    rw [countTargets]
    split
    · exact ⟨none, numPaths, rfl, fun _ h => h⟩
    · obtain ⟨n, numPaths₁, visited, more⟩ := returns target numPaths extends'
      obtain ⟨r, numPaths₂, looped, more'⟩ := ih (count + n) numPaths₁ fun v h => extends' v (more v h)
      refine ⟨r, numPaths₂, ?_, fun v h => more v (more' v h)⟩
      simp [visited, looped]

/-- With fuel for every vertex without a result, a visit comes to its end. -/
theorem countPathsSub_returns (successors : ∀ v, (dcg.vertex v).result = none → dcg.outEdges v ≠ [])
    (fuel : Nat) (node : V) (numPaths : NumPaths V) (enough : (unknown numPaths).card < fuel) :
    ∃ n numPaths', countPathsSub dcg fuel node numPaths = some (n, numPaths') ∧
      Extends numPaths numPaths' := by
  induction fuel generalizing node numPaths with
  | zero => omega
  | succ fuel ih =>
    rw [countPathsSub]
    cases result : (dcg.vertex node).result with
    | some value => exact ⟨value, numPaths, rfl, fun _ h => h⟩
    | none =>
      cases known : numPaths node with
      | some count => exact ⟨count, numPaths, rfl, fun _ h => h⟩
      | none =>
        simp only [if_neg (successors node result)]
        have fewer := card_unknown_assign known visitingFlag
        have returns : ∀ v numPaths', Extends (assign numPaths node visitingFlag) numPaths' →
            ∃ n numPaths'', countPathsSub dcg fuel v numPaths' = some (n, numPaths'') ∧
              Extends numPaths' numPaths'' := by
          intro v numPaths' extends'
          have le := card_unknown_le extends'
          exact ih v numPaths' (by omega)
        obtain ⟨r, numPaths', looped, more⟩ :=
          countTargets_returns returns (dcg.outEdges node) 0 _ fun _ h => h
        have before : Extends numPaths numPaths' := by
          intro v h
          by_cases same : v = node
          · rw [same, known]
          · have unmarked := more v h
            rwa [assign_ne same] at unmarked
        rw [looped]
        cases r with
        | none => exact ⟨0, numPaths', rfl, before⟩
        | some count =>
          refine ⟨count, _, rfl, fun v h => ?_⟩
          by_cases same : v = node
          · rw [same, known]
          · rw [assign_ne same] at h
            exact before v h

/-- Where the start state leads to no cycle, and to no vertex with a number of paths that reads as a
mark, no vertex is given up. -/
theorem abandoned_eq_nil {startState : V} (acyclic : Acyclic (dcg.FollowsFrom startState))
    (few : ∀ v, Relation.ReflTransGen dcg.Follows startState v →
      Nat.card {p : Walk dcg.graph v // p.LoopFree} < visitingFlag.toNat) (fuel : Nat) :
    abandoned dcg fuel startState = [] := by
  obtain ⟨rank, lower⟩ := acyclic.exists_rank Finset.univ fun v _ _ => Finset.mem_univ v
  have descends : Descends dcg {v | Relation.ReflTransGen dcg.Follows startState v} rank := by
    refine ⟨fun v reached inner w target => ?_, few⟩
    exact ⟨reached.tail ⟨inner, target⟩, lower v w ⟨reached, inner, target⟩⟩
  exact abandonedSub_eq_nil descends fuel ∅ ∅ _ startState .fresh .refl fun _ none => nomatch none

theorem countPaths_returns (successors : ∀ v, (dcg.vertex v).result = none → dcg.outEdges v ≠ [])
    {fuel : Nat} (enough : Fintype.card V < fuel) (startState : V) :
    ∃ r, countPaths dcg fuel startState = some r := by
  obtain ⟨r, numPaths, visited, -⟩ := countPathsSub_returns successors fuel startState (fun _ => none)
    ((Finset.card_le_univ _).trans_lt enough)
  exact ⟨r, by rw [countPaths, visited]; rfl⟩

/-- Where nothing leads back, the number of paths is exact. -/
theorem countPaths_of_acyclic (successors : ∀ v, (dcg.vertex v).result = none → dcg.outEdges v ≠ [])
    {startState : V} (acyclic : Acyclic (dcg.FollowsFrom startState))
    (few : ∀ v, Relation.ReflTransGen dcg.Follows startState v →
      Nat.card {p : Walk dcg.graph v // p.LoopFree} < visitingFlag.toNat)
    {fuel : Nat} (enough : Fintype.card V < fuel) :
    ∃ r, countPaths dcg fuel startState = some r ∧
      r.toNat = Nat.card {p : Walk dcg.graph startState // p.LoopFree} := by
  obtain ⟨r, ran⟩ := countPaths_returns successors enough startState
  refine ⟨r, ran, ?_⟩
  have fits := (few startState .refl).trans visitingFlag.toNat_lt
  rw [countPaths_eq ran, abandoned_eq_nil acyclic few]
  simpa using fits

/-- The number of paths that is returned is exact where it fits into the type and no path that visits
no vertex twice passes through a vertex that is given up. -/
theorem countPaths_exact_iff (dcg : NodesCallGraph V)
    (successors : ∀ v, (dcg.vertex v).result = none → dcg.outEdges v ≠ []) (startState : V)
    (fuel : Nat) (enough : Fintype.card V < fuel) :
    ∃ r, countPaths dcg fuel startState = some r ∧
      (r.toNat = Nat.card {p : Walk dcg.graph startState // p.LoopFree} ↔
        Nat.card {p : Walk dcg.graph startState // p.LoopFree} < 2 ^ 64 ∧
          ∀ p : Walk dcg.graph startState, p.LoopFree →
            ∀ v ∈ p.vertices, v ∉ abandoned dcg fuel startState) := by
  obtain ⟨r, ran⟩ := countPaths_returns successors enough startState
  refine ⟨r, ran, ?_⟩
  have value := countPaths_eq ran
  have := finite_loopFree (g := dcg.graph) startState
  have le := card_restriction_le (P := fun p : Walk dcg.graph startState => p.LoopFree)
    (Q := fun p => p.LoopFree ∧ ∀ v ∈ p.vertices, v ∉ abandoned dcg fuel startState)
    fun p h => h.1
  have same := card_restriction_eq_iff (P := fun p : Walk dcg.graph startState => p.LoopFree)
    (Q := fun p => p.LoopFree ∧ ∀ v ∈ p.vertices, v ∉ abandoned dcg fuel startState)
    fun p h => h.1
  constructor
  · intro exact'
    have fits := r.toNat_lt
    rw [exact'] at fits value
    rw [Nat.mod_eq_of_lt (le.trans_lt fits)] at value
    exact ⟨fits, fun p loopFree => (same.mp value.symm p loopFree).2⟩
  · rintro ⟨fits, avoids⟩
    rw [value, same.mpr fun p loopFree => ⟨loopFree, avoids p loopFree⟩, Nat.mod_eq_of_lt fits]

end Returns

end Visit

end Search

section Examples

/-- Three paths lead to the end. -/
def branchGraph : NodesCallGraph (Fin 4) where
  vertex := ![.parserState "start", .parserState "parse", .parserState "accept", .parserState "reject"]
  outEdges := ![[1, 2], [2, 3], [], []]

/-- A state that leads back to the start state, or to the end. -/
def loopGraph : NodesCallGraph (Fin 3) where
  vertex := ![.parserState "start", .parserState "parse", .parserState "accept"]
  outEdges := ![[1], [0, 2], []]

theorem branchGraph_walks : Nat.card {p : Walk branchGraph.graph 0 // p.LoopFree} = 3 := by
  have inner : ∀ v : Fin 4, v < 2 → (branchGraph.vertex v).result = none := by decide
  have ends : ∀ v : Fin 4, ¬v < 2 → (branchGraph.vertex v).result = some 1 := by decide
  have later : ∀ v : Fin 4, ∀ w ∈ branchGraph.outEdges v, v < w := by decide
  let states : Set (Fin 4) := {v | v < 2}
  have ranked : Walk.Ranked branchGraph.graph states fun v => 4 - v.val :=
    ⟨inner, fun v _ w target _ => Nat.sub_lt_sub_left v.isLt (later v w target)⟩
  have settled : ∀ v, Walk.Settled branchGraph.graph states ∅ v := by
    intro v inner
    by_contra outside
    exact branchGraph.graph.disjoint v inner (ends v fun mem => outside (.inl mem))
  have closed : Walk.Closed branchGraph.graph states ∅ :=
    ⟨fun _ _ none => none, fun _ _ w _ => settled w⟩
  have accept : Walk.count branchGraph.graph states 2 = 1 := Walk.count_ends (ends 2 (by decide))
  have reject : Walk.count branchGraph.graph states 3 = 1 := Walk.count_ends (ends 3 (by decide))
  have parse : Walk.count branchGraph.graph states 1 = 2 := by
    rw [Walk.count_step ranked (show (1 : Fin 4) < 2 by decide)]
    change [Walk.count branchGraph.graph states 2, Walk.count branchGraph.graph states 3].sum = 2
    rw [accept, reject]
    rfl
  have start : Walk.count branchGraph.graph states 0 = 3 := by
    rw [Walk.count_step ranked (show (0 : Fin 4) < 2 by decide)]
    change [Walk.count branchGraph.graph states 1, Walk.count branchGraph.graph states 2].sum = 3
    rw [parse, accept]
    rfl
  refine Eq.trans ?_ start
  refine Nat.card_congr (Equiv.subtypeEquivRight fun p => ?_)
  rw [Walk.within_iff ranked closed (settled 0)]
  simp

/-- No path is given up, and the number of the paths fits. -/
theorem branchGraph_counted :
    ∃ r, countPaths branchGraph 5 0 = some r ∧
      r.toNat = Nat.card {p : Walk branchGraph.graph 0 // p.LoopFree} := by
  have given : abandoned branchGraph 5 0 = [] := by decide
  obtain ⟨r, counted, exact⟩ := countPaths_exact_iff branchGraph (by decide) 0 5 (by decide)
  refine ⟨r, counted, exact.mpr ⟨?_, fun p _ v _ mem => ?_⟩⟩
  · rw [branchGraph_walks]
    decide
  · rw [given] at mem
    cases mem

/-- No path is counted, although one visits no state twice. -/
theorem loopGraph_hidden :
    (∀ v, (loopGraph.vertex v).result = none → loopGraph.outEdges v ≠ []) ∧
      countPaths loopGraph 4 0 = some 0 ∧
      ¬(0 : UInt64).toNat = Nat.card {p : Walk loopGraph.graph 0 // p.LoopFree} := by
  refine ⟨by decide, by decide, fun none => ?_⟩
  have finite := Walk.finite_loopFree (g := loopGraph.graph) 0
  let direct : Walk loopGraph.graph 0 :=
    .step rfl ⟨0, by decide⟩ (.step rfl ⟨1, by decide⟩ (.stop rfl))
  have loopFree : direct.LoopFree := by
    change ([0, 1] : List (Fin 3)).Nodup
    decide
  have : Nonempty {p : Walk loopGraph.graph 0 // p.LoopFree} := ⟨direct, loopFree⟩
  exact Nat.card_pos.ne none

end Examples

end ParserPathsCounter

end Flay
