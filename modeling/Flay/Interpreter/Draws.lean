import Flay.Interpreter.Simulation

/-! Symbolic variables that stand for what a run draws from outside of the program, and when one
valuation gives all of them the values that are drawn. -/

namespace Flay

open Container

/-- A symbolic variable with the value that is drawn for it. -/
abbrev Draw : Type := Sigma fun x : SymbolicVariable => x.type.Val

/-- The valuation has the values that are drawn. -/
def Valuation.Agrees (ρ : Valuation) (draws : List Draw) : Prop := ∀ d ∈ draws, ρ d.1 = d.2

/-- No variable is drawn with two values. -/
def Consistent (draws : List Draw) : Prop := ∀ d ∈ draws, ∀ d' ∈ draws, d.1 = d'.1 → d = d'

/-- The valuation with the values that are drawn. -/
def Valuation.assign (ρ : Valuation) (draws : List Draw) : Valuation :=
  draws.foldr (fun d ρ => Function.update ρ d.1 d.2) ρ

section Valuations

variable {ρ : Valuation} {draws : List Draw}

theorem Valuation.Agrees.consistent (h : ρ.Agrees draws) : Consistent draws := by
  rintro ⟨x, v⟩ mem ⟨y, v'⟩ mem' (rfl : x = y)
  exact congrArg (Sigma.mk x) ((h _ mem).symm.trans (h _ mem'))

/-- Variables that are drawn once. -/
theorem Consistent.of_nodupKeys (h : draws.NodupKeys) : Consistent draws :=
  fun _ mem _ mem' same => h.eq_of_fst_eq mem mem' same

theorem Consistent.tail {d : Draw} (h : Consistent (d :: draws)) : Consistent draws :=
  fun e mem e' mem' => h e (List.mem_cons_of_mem _ mem) e' (List.mem_cons_of_mem _ mem')

theorem Consistent.agrees_assign (h : Consistent draws) (ρ : Valuation) :
    (ρ.assign draws).Agrees draws := by
  induction draws with
  | nil => exact fun _ mem => by cases mem
  | cons d draws ih =>
    intro e mem
    rw [Valuation.assign, List.foldr_cons]
    by_cases same : e.1 = d.1
    · obtain rfl := h e mem d List.mem_cons_self same
      exact Function.update_self ..
    · have later : e ∈ draws := (List.mem_cons.mp mem).resolve_left fun eq => same (eq ▸ rfl)
      rw [Function.update_of_ne same]
      exact ih h.tail e later

theorem Valuation.assign_of_notMem {x : SymbolicVariable} (h : ∀ d ∈ draws, d.1 ≠ x) :
    ρ.assign draws x = ρ x := by
  induction draws with
  | nil => rfl
  | cons d draws ih =>
    rw [assign, List.foldr_cons, Function.update_of_ne (h d List.mem_cons_self).symm]
    exact ih fun e mem => h e (List.mem_cons_of_mem _ mem)

end Valuations

/-- The symbolic variables that the values of the program variables and the condition of the path
have. -/
def ExecutionState.symbols (vars : List StateVariable) (s : ExecutionState) :
    List SymbolicVariable :=
  vars.flatMap (fun x => ((s.env.find x).map Expr.symbols).getD []) ++
    s.getExecutionCondition.symbols

/-- The valuation makes the condition of the path true, and gives the variables the values that they
have in the world. -/
structure Describes (vars : List StateVariable) (ρ : Valuation) (s : ExecutionState) (w : World) :
    Prop where
  defined : vars ⊆ s.env.keys
  holds : s.Holds ρ
  simulates : Simulates ρ vars s w

section States

variable {vars : List StateVariable} {ρ ρ' : Valuation} {s : ExecutionState} {w : World}

theorem Describes.congr (h : Describes vars ρ s w) (same : ∀ x ∈ s.symbols vars, ρ' x = ρ x) :
    Describes vars ρ' s w where
  defined := h.defined
  holds := by
    have value : s.getExecutionCondition.eval ρ' = s.getExecutionCondition.eval ρ :=
      Expr.eval_congr fun x mem => same x (List.mem_append_right _ mem)
    exact value.trans h.holds
  simulates := by
    intro x mem
    have value := h.simulates x mem
    rw [ExecutionState.value] at value ⊢
    cases found : s.env.find x with
    | none => simp [found] at value
    | some e =>
      have occurs : ∀ y ∈ e.symbols, y ∈ s.symbols vars := fun y inside =>
        List.mem_append_left _ (List.mem_flatMap.mpr ⟨x, mem, by simpa [found] using inside⟩)
      rw [found] at value
      rw [Option.map_some, Expr.eval_congr fun y inside => same y (occurs y inside)]
      exact value

theorem Describes.of_unchanged {i i' : Interpretation} {w : World}
    (h : Describes vars ρ i.state w) (unchanged : i.Unchanged i') : Describes vars ρ i'.state w where
  defined := fun _ mem => unchanged.mem_keys.mpr (h.defined mem)
  holds := unchanged.holds.mpr h.holds
  simulates := unchanged.of_simulates h.simulates

end States

/-- The valuation is another one on variables that are drawn and not known before, at most. -/
def Valuation.Extends (ρ : Valuation) (known : List SymbolicVariable) (draws : List Draw)
    (ρ' : Valuation) : Prop := ∀ x, (∀ d ∈ draws, d.1 ≠ x) ∨ x ∈ known → ρ' x = ρ x

section Extensions

variable {known : List SymbolicVariable} {draws : List Draw}

/-- Fresh variables have the values that are drawn in some valuation, if and only if no variable is
drawn with two values, and those that are known before have the values that are drawn. -/
theorem exists_extends_iff (ρ : Valuation) :
    (∃ ρ', ρ.Extends known draws ρ' ∧ ρ'.Agrees draws) ↔
      (∀ d ∈ draws, d.1 ∈ known → ρ d.1 = d.2) ∧ Consistent draws := by
  constructor
  · rintro ⟨ρ', extends', agrees⟩
    refine ⟨fun d mem occurs => ?_, agrees.consistent⟩
    exact (extends' d.1 (.inr occurs)).symm.trans (agrees d mem)
  · rintro ⟨fixed, consistent⟩
    have agrees := consistent.agrees_assign ρ
    refine ⟨ρ.assign draws, fun x same => ?_, agrees⟩
    by_cases drawn : ∃ d ∈ draws, d.1 = x
    · obtain ⟨d, mem, rfl⟩ := drawn
      have occurs : d.1 ∈ known := same.resolve_left fun absent => absent d mem rfl
      exact (agrees d mem).trans (fixed d mem occurs).symm
    · exact Valuation.assign_of_notMem fun d mem same => drawn ⟨d, mem, same⟩

/-- A valuation has a property and the values that are drawn, if and only if no variable is drawn with
two values, and one that has the property has the values that are drawn for the variables that the
property depends on. -/
theorem exists_agrees_iff {P : Valuation → Prop}
    (depends : ∀ ρ ρ' : Valuation, (∀ x ∈ known, ρ' x = ρ x) → P ρ → P ρ') :
    (∃ ρ, P ρ ∧ ρ.Agrees draws) ↔
      (∃ ρ, P ρ ∧ ∀ d ∈ draws, d.1 ∈ known → ρ d.1 = d.2) ∧ Consistent draws := by
  constructor
  · rintro ⟨ρ, holds, agrees⟩
    exact ⟨⟨ρ, holds, fun d mem _ => agrees d mem⟩, agrees.consistent⟩
  · rintro ⟨⟨ρ, holds, fixed⟩, consistent⟩
    obtain ⟨ρ', extends', agrees⟩ := (exists_extends_iff ρ).mpr ⟨fixed, consistent⟩
    exact ⟨ρ', depends ρ ρ' (fun x mem => extends' x (.inr mem)) holds, agrees⟩

end Extensions

end Flay
