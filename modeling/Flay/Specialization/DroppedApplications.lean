import Mathlib.Data.List.Nodup
import Flay.ControlPlane.Miss
import Flay.Specialization.DefaultReplacement
import Flay.Specialization.SwitchFilter

/-! Which applications of tables inside expressions `ElimDeadCode` drops: those whose member `hit` or
`miss` it replaces by a literal, and those that a switch that goes away makes. -/

namespace Flay

/-- The state of a packet: the values of the variables. -/
abbrev PacketState : Type := (x : StateVariable) → x.type.Val

/-- What the applications of the tables do under a configuration: what they return, and the state that
the action they execute leaves. -/
structure TableBehavior where
  result : P4Table → PacketState → TableResult
  after : P4Table → PacketState → PacketState

namespace TableBehavior

/-- The handlers with the behavior, which record the applications. -/
def handlers (b : TableBehavior) : Handlers P4Table ActionCall where
  applyTable table w :=
    (b.result table w.env, ⟨b.after table w.env, w.events ++ [.applied table.controlPlaneName]⟩)
  callAction call w := call.run w

/-- No action that the table executes changes the state. -/
def NoEffect (b : TableBehavior) (table : P4Table) : Prop := ∀ env, b.after table env = env

end TableBehavior

/-- An application of a table in an expression: by a member with its node and value, or by
`action_run`. -/
inductive Application
  | member (node : Node) (table : P4Table) (value : Bool)
  | actionRun (table : P4Table)

namespace Application

def table : Application → P4Table
  | member _ table _ => table
  | actionRun table => table

/-- Where an expression writes the application down. -/
def site : Application → Option Node × P4Table
  | member node table _ => (some node, table)
  | actionRun table => (none, table)

variable (reachability : Node → Option Bool)

/-- The pass replaces the application. -/
def Replaced : Application → Prop
  | member node _ _ => reachability node ≠ none
  | actionRun _ => False

/-- A verdict on the member is the value that it has. -/
def Sound : Application → Prop
  | member node _ value => ∀ verdict, reachability node = some verdict → verdict = value
  | actionRun _ => True

end Application

/-- The applications in the evaluation of an expression, in their order. -/
def ProgramExpr.applications (b : TableBehavior) :
    {t : Ty} → ProgramExpr P4Table t → World → List Application
  | _, .lit _, _ => []
  | _, .path _ _ _, _ => []
  | _, .hit node table, w => [.member node table (b.result table w.env).hit]
  | _, .miss node table, w => [.member node table (!(b.result table w.env).hit)]
  | _, .actionRun table, _ => [.actionRun table]
  | _, .lNot e, w => e.applications b w
  | _, .lAnd left right, w =>
    let result := left.eval b.handlers w
    left.applications b w ++ if result.1 then right.applications b result.2 else []
  | _, .lOr left right, w =>
    let result := left.eval b.handlers w
    left.applications b w ++ if result.1 then [] else right.applications b result.2
  | _, .equ left right, w =>
    left.applications b w ++ right.applications b (left.eval b.handlers w).2
  | _, .neq left right, w =>
    left.applications b w ++ right.applications b (left.eval b.handlers w).2
  | _, .unary _ e, w => e.applications b w
  | _, .binary _ left right, w =>
    left.applications b w ++ right.applications b (left.eval b.handlers w).2
  | _, .mux e0 e1 e2, w =>
    let result := e0.eval b.handlers w
    e0.applications b w ++
      if result.1 then e1.applications b result.2 else e2.applications b result.2

/-- The applications that an expression writes down, each with the node of its member. -/
def ProgramExpr.sites : {t : Ty} → ProgramExpr P4Table t → List (Option Node × P4Table)
  | _, .lit _ => []
  | _, .path _ _ _ => []
  | _, .hit node table => [(some node, table)]
  | _, .miss node table => [(some node, table)]
  | _, .actionRun table => [(none, table)]
  | _, .lNot e => e.sites
  | _, .lAnd left right => left.sites ++ right.sites
  | _, .lOr left right => left.sites ++ right.sites
  | _, .equ left right => left.sites ++ right.sites
  | _, .neq left right => left.sites ++ right.sites
  | _, .unary _ e => e.sites
  | _, .binary _ left right => left.sites ++ right.sites
  | _, .mux e0 e1 e2 => e0.sites ++ (e1.sites ++ e2.sites)

section Count

open Classical

/-- How often a table is among those applied. -/
noncomputable def timesApplied (table : P4Table) (applied : List P4Table) : Nat :=
  applied.count table

@[simp] theorem timesApplied_nil (table : P4Table) : timesApplied table [] = 0 := List.count_nil

@[simp] theorem timesApplied_append (table : P4Table) (l m : List P4Table) :
    timesApplied table (l ++ m) = timesApplied table l + timesApplied table m :=
  List.count_append

theorem timesApplied_eq_zero {table : P4Table} {l : List P4Table} :
    timesApplied table l = 0 ↔ table ∉ l :=
  List.count_eq_zero

end Count

/-- The tables applied are the same ones as often, apart from those without an effect. -/
def KeepsEffects (b : TableBehavior) (applied applied' : List P4Table) : Prop :=
  ∀ table, timesApplied table applied' = timesApplied table applied ∨ b.NoEffect table

namespace KeepsEffects

variable {b : TableBehavior} {l l' m m' : List P4Table}

theorem refl (l : List P4Table) : KeepsEffects b l l := fun _ => .inl rfl

theorem append (left : KeepsEffects b l l') (right : KeepsEffects b m m') :
    KeepsEffects b (l ++ m) (l' ++ m') := by
  intro table
  rcases left table with hl | none
  · rcases right table with hr | none
    · left
      rw [timesApplied_append, timesApplied_append, hl, hr]
    · exact .inr none
  · exact .inr none

/-- A table that is no longer applied has no effect. -/
theorem noEffect_of_dropped (keeps : KeepsEffects b l l') {table : P4Table} (before : table ∈ l)
    (after : table ∉ l') : b.NoEffect table := by
  refine (keeps table).resolve_left fun same => ?_
  rw [timesApplied_eq_zero.mpr after] at same
  exact timesApplied_eq_zero.mp same.symm before

theorem nil_iff : KeepsEffects b l [] ↔ ∀ table ∈ l, b.NoEffect table := by
  constructor
  · intro keeps table mem
    exact keeps.noEffect_of_dropped mem List.not_mem_nil
  · intro none table
    by_cases mem : table ∈ l
    · exact .inr (none table mem)
    · left
      rw [timesApplied_nil, timesApplied_eq_zero.mpr mem]

end KeepsEffects

namespace ElimDeadCode

variable {reachability : Node → Option Bool} {b : TableBehavior}

/-- The rewritten expression has the value of the original one, leaves the same state, and applies
the tables with an effect as often. -/
structure Agrees (b : TableBehavior) {t : Ty} (e e' : ProgramExpr P4Table t) (w w' : World) :
    Prop where
  value : (e'.eval b.handlers w').1 = (e.eval b.handlers w).1
  env : (e'.eval b.handlers w').2.env = (e.eval b.handlers w).2.env
  keeps : KeepsEffects b ((e.applications b w).map Application.table)
    ((e'.applications b w').map Application.table)

/-- The application stays, or changes nothing. -/
def Harmless (reachability : Node → Option Bool) (b : TableBehavior) (a : Application) : Prop :=
  ¬a.Replaced reachability ∨ b.NoEffect a.table

/-- A verdict that replaces a member has its value, and the table that is no longer applied no
effect. -/
theorem noEffect_of_verdict {node : Node} {table : P4Table} {value verdict : Bool}
    (h : reachability node = some verdict)
    (sound : (Application.member node table value).Sound reachability)
    (harmless : Harmless reachability b (.member node table value)) :
    verdict = value ∧ b.NoEffect table := by
  refine ⟨sound verdict h, harmless.resolve_left fun kept => kept ?_⟩
  show reachability node ≠ none
  rw [h]
  exact Option.some_ne_none verdict

/-- A literal agrees with a member that has its value, if the application has no effect. -/
theorem agrees_boolLiteral {member : ProgramExpr P4Table .boolean} {node : Node} {table : P4Table}
    {value : Bool} {w w' : World} (same : w'.env = w.env) (none : b.NoEffect table)
    (applications : member.applications b w = [.member node table value])
    (evaluates : (member.eval b.handlers w).1 = value)
    (after : (member.eval b.handlers w).2.env = b.after table w.env) :
    Agrees b member (boolLiteral value) w w' := by
  refine ⟨evaluates.symm, ?_, ?_⟩
  · show w'.env = _
    rw [after, none, same]
  · rw [applications]
    refine KeepsEffects.nil_iff.mpr fun table mem => ?_
    cases List.mem_singleton.mp mem
    exact none

/-- Two expressions one after the other. -/
theorem Agrees.andThen {s t : Ty} {left left' : ProgramExpr P4Table s}
    {right right' : ProgramExpr P4Table t} {w w' : World} (hl : Agrees b left left' w w')
    (hr : Agrees b right right' (left.eval b.handlers w).2 (left'.eval b.handlers w').2) :
    KeepsEffects b
      ((left.applications b w ++ right.applications b (left.eval b.handlers w).2).map
        Application.table)
      ((left'.applications b w' ++ right'.applications b (left'.eval b.handlers w').2).map
        Application.table) := by
  rw [List.map_append, List.map_append]
  exact hl.keeps.append hr.keeps

/-- A choice between two expressions. -/
theorem Agrees.mux {t : Ty} {e0 e0' : ProgramExpr P4Table .boolean}
    {e1 e1' e2 e2' : ProgramExpr P4Table t} {w w' : World} (h0 : Agrees b e0 e0' w w')
    (h1 : (e0.eval b.handlers w).1 = true →
      Agrees b e1 e1' (e0.eval b.handlers w).2 (e0'.eval b.handlers w').2)
    (h2 : (e0.eval b.handlers w).1 = false →
      Agrees b e2 e2' (e0.eval b.handlers w).2 (e0'.eval b.handlers w').2) :
    Agrees b (.mux e0 e1 e2) (.mux e0' e1' e2') w w' := by
  cases value : (e0.eval b.handlers w).1 with
  | true =>
    have value' := h0.value.trans value
    have taken := h1 value
    refine ⟨?_, ?_, ?_⟩
    · simpa [ProgramExpr.eval, value, value'] using taken.value
    · simpa [ProgramExpr.eval, value, value'] using taken.env
    · simpa [ProgramExpr.applications, value, value'] using h0.andThen taken
  | false =>
    have value' := h0.value.trans value
    have taken := h2 value
    refine ⟨?_, ?_, ?_⟩
    · simpa [ProgramExpr.eval, value, value'] using taken.value
    · simpa [ProgramExpr.eval, value, value'] using taken.env
    · simpa [ProgramExpr.applications, value, value'] using h0.andThen taken

theorem agrees_lit {t : Ty} (value : t.Val) {w w' : World} (same : w'.env = w.env) :
    Agrees b (.lit value) (.lit value) w w' :=
  ⟨rfl, same, .refl _⟩

/-- Where the applications are harmless and the verdicts sound, the pass keeps what the evaluation of
an expression does. -/
theorem agrees_expression {t : Ty} (e : ProgramExpr P4Table t) {w w' : World}
    (same : w'.env = w.env)
    (sound : ∀ a ∈ e.applications b w, a.Sound reachability ∧ Harmless reachability b a) :
    Agrees b e (expression reachability e) w w' := by
  induction e generalizing w w' with
  | lit value => exact agrees_lit value same
  | path node name t => exact ⟨congrFun same _, same, .refl _⟩
  | hit node table | miss node table =>
    obtain ⟨sound, harmless⟩ := sound _ List.mem_cons_self
    cases verdict : reachability node with
    | none =>
      simp only [expression, verdict, Option.map_none, Option.getD_none]
      refine ⟨?_, ?_, .refl _⟩ <;> simp [ProgramExpr.eval, TableBehavior.handlers, same]
    | some value =>
      obtain ⟨rfl, none⟩ := noEffect_of_verdict verdict sound harmless
      simp only [expression, verdict, Option.map_some, Option.getD_some]
      exact agrees_boolLiteral same none rfl rfl rfl
  | actionRun table =>
    refine ⟨?_, ?_, .refl _⟩ <;> simp [expression, ProgramExpr.eval, TableBehavior.handlers, same]
  | lNot e ih =>
    obtain ⟨value, env, keeps⟩ := ih same sound
    exact ⟨congrArg Bool.not value, env, keeps⟩
  | lAnd left right ihl ihr =>
    simp only [ProgramExpr.applications, List.mem_append] at sound
    have hl := ihl same fun a ha => sound a (.inl ha)
    -- The operators that stop early are choices of a literal.
    have choice := hl.mux
      (fun value => ihr hl.env fun a ha => sound a (.inr (by simpa [value] using ha)))
      (fun _ => agrees_lit (t := .boolean) false hl.env)
    exact ⟨choice.value, choice.env, choice.keeps⟩
  | lOr left right ihl ihr =>
    simp only [ProgramExpr.applications, List.mem_append] at sound
    have hl := ihl same fun a ha => sound a (.inl ha)
    have choice := hl.mux (fun _ => agrees_lit (t := .boolean) true hl.env)
      (fun value => ihr hl.env fun a ha => sound a (.inr (by simpa [value] using ha)))
    exact ⟨choice.value, choice.env, choice.keeps⟩
  | equ left right ihl ihr | neq left right ihl ihr | binary op left right ihl ihr =>
    have hl := ihl same fun a ha => sound a (List.mem_append_left _ ha)
    have hr := ihr hl.env fun a ha => sound a (List.mem_append_right _ ha)
    refine ⟨?_, hr.env, hl.andThen hr⟩
    simp only [expression, ProgramExpr.eval, hl.value, hr.value]
  | unary op e ih =>
    obtain ⟨value, env, keeps⟩ := ih same sound
    exact ⟨congrArg op.eval value, env, keeps⟩
  | mux e0 e1 e2 ih0 ih1 ih2 =>
    simp only [ProgramExpr.applications, List.mem_append] at sound
    have h0 := ih0 same fun a ha => sound a (.inl ha)
    exact h0.mux (fun value => ih1 h0.env fun a ha => sound a (.inr (by simpa [value] using ha)))
      (fun value => ih2 h0.env fun a ha => sound a (.inr (by simpa [value] using ha)))

/-- The pass leaves the application of the site in place. -/
def stays (reachability : Node → Option Bool) (site : Option Node × P4Table) : Bool :=
  site.1.all fun node => (reachability node).isNone

theorem stays_of_replaced {a : Application} (replaced : a.Replaced reachability) :
    stays reachability a.site = false := by
  cases a with
  | member node table value =>
    show (reachability node).isNone = false
    exact Option.isNone_eq_false_iff.mpr (Option.isSome_iff_ne_none.mpr replaced)
  | actionRun table => exact replaced.elim

theorem sites_expression {t : Ty} (e : ProgramExpr P4Table t) :
    (expression reachability e).sites = e.sites.filter (stays reachability) := by
  induction e with
  | lit | path | actionRun => rfl
  | hit node table | miss node table =>
    cases verdict : reachability node <;>
      simp [expression, verdict, ProgramExpr.sites, stays, boolLiteral]
  | lNot e ih | unary op e ih => exact ih
  | lAnd left right ihl ihr | lOr left right ihl ihr | equ left right ihl ihr
  | neq left right ihl ihr | binary op left right ihl ihr =>
    simp [expression, ProgramExpr.sites, ihl, ihr]
  | mux e0 e1 e2 ih0 ih1 ih2 => simp [expression, ProgramExpr.sites, ih0, ih1, ih2]

/-- The evaluation of an expression makes only applications that it writes down. -/
theorem site_mem_sites {t : Ty} {e : ProgramExpr P4Table t} {w : World} {a : Application}
    (mem : a ∈ e.applications b w) : a.site ∈ e.sites := by
  induction e generalizing w with
  | lit | path => cases mem
  | hit node table | miss node table | actionRun table =>
    cases List.mem_singleton.mp mem
    exact List.mem_cons_self
  | lNot e ih | unary op e ih => exact ih mem
  | lAnd left right ihl ihr =>
    rcases List.mem_append.mp mem with hl | hr
    · exact List.mem_append_left _ (ihl hl)
    · split at hr
      · exact List.mem_append_right _ (ihr hr)
      · cases hr
  | lOr left right ihl ihr =>
    rcases List.mem_append.mp mem with hl | hr
    · exact List.mem_append_left _ (ihl hl)
    · split at hr
      · cases hr
      · exact List.mem_append_right _ (ihr hr)
  | equ left right ihl ihr | neq left right ihl ihr | binary op left right ihl ihr =>
    exact List.mem_append.mpr ((List.mem_append.mp mem).imp ihl ihr)
  | mux e0 e1 e2 ih0 ih1 ih2 =>
    rcases List.mem_append.mp mem with h0 | h
    · exact List.mem_append_left _ (ih0 h0)
    · refine List.mem_append_right _ ?_
      split at h
      · exact List.mem_append_left _ (ih1 h)
      · exact List.mem_append_right _ (ih2 h)

/-- A table whose only application in an expression is replaced is not applied any more. -/
theorem table_not_mem_of_replaced {t : Ty} {e : ProgramExpr P4Table t} {w : World} {a : Application}
    (once : (e.sites.map Prod.snd).Nodup) (mem : a ∈ e.applications b w)
    (replaced : a.Replaced reachability) (w' : World) :
    a.table ∉ ((expression reachability e).applications b w').map Application.table := by
  intro again
  obtain ⟨a', mem', same⟩ := List.mem_map.mp again
  have kept := site_mem_sites mem'
  rw [sites_expression, List.mem_filter] at kept
  have tables : a'.site.2 = a.site.2 := by
    cases a' <;> cases a <;> exact same
  have sites := List.inj_on_of_nodup_map once kept.1 (site_mem_sites mem) tables
  rw [sites, stays_of_replaced replaced] at kept
  exact absurd kept.2 (by decide)

end ElimDeadCode

namespace ControlStatement

variable (b : TableBehavior) (reachability : Node → Option Bool)

/-- The expression of a statement itself, apart from those of the statements in it. -/
def ownExpression : ControlStatement → Option (Sigma (ProgramExpr P4Table))
  | .ifStatement _ condition _ _ => some ⟨_, condition⟩
  | .switchStatement expression _ => some ⟨_, expression⟩
  | .assignment _ right => some ⟨_, right⟩
  | .declaration _ initializer => some ⟨_, initializer⟩
  | _ => none

/-- The applications in the evaluation of the expression of a statement. -/
def ownApplications (s : ControlStatement) (w : World) : List Application :=
  (s.ownExpression.map fun e => e.2.applications b w).getD []

/-- The applications that the expression of a statement writes down. -/
def ownSites (s : ControlStatement) : List (Option Node × P4Table) :=
  (s.ownExpression.map fun e => e.2.sites).getD []

/-- The pass leaves a statement with the expression: a switch keeps a case besides the default one. -/
def Remains : ControlStatement → Prop
  | .switchStatement _ cases =>
    ∃ c ∈ cases.takeWhile (fun c => c.label ≠ .default), reachability c.node ≠ some false
  | _ => True

/-- The statement applies the tables with an effect as often after the pass as before, for each of
the packets. -/
def KeepsApplications (packets : World → Prop) (s : ControlStatement) : Prop :=
  ∀ w, packets w → KeepsEffects b ((s.ownApplications b w).map Application.table)
    (((ElimDeadCode.controlStatement reachability s).ownApplications b w).map Application.table)

/-- The applications of the statement either stay or change nothing, for each of the packets. -/
def Unharmed (packets : World → Prop) (s : ControlStatement) : Prop :=
  ∀ w, packets w → ∀ a ∈ s.ownApplications b w,
    (s.Remains reachability ∧ ¬a.Replaced reachability) ∨ b.NoEffect a.table

end ControlStatement

namespace ElimDeadCode

theorem filterCases_nil {τ α : Type} (cases : List (SwitchCase τ α)) :
    filterCases reachability [] false cases = kept reachability cases := by
  rw [filterCases_eq, mergeInto_nil, List.nil_append]

variable {τ α : Type} {cases : List (SwitchCase τ α)}

/-- A case besides the default one that is not known to go away is kept first, with its label. -/
theorem kept_of_exists
    (h : ∃ c ∈ cases.takeWhile (fun c => c.label ≠ .default), reachability c.node ≠ some false) :
    ∃ c rest, kept reachability cases = c :: rest ∧ c.label ≠ .default := by
  induction cases with
  | nil => simp at h
  | cons c cases ih =>
    by_cases default : c.label = .default
    · simp [default] at h
    by_cases dropped : reachability c.node = some false
    · rw [kept, if_pos ⟨default, dropped⟩]
      refine ih ?_
      obtain ⟨d, hd, alive⟩ := h
      rw [List.takeWhile_cons, if_pos (by simpa using default)] at hd
      cases hd with
      | head => exact absurd dropped alive
      | tail _ hd => exact ⟨d, hd, alive⟩
    · rw [kept, if_neg fun h => dropped h.2]
      split
      · exact ⟨c, [], rfl, default⟩
      · exact ⟨_, _, rfl, (label_overridden c _).symm ▸ default⟩

theorem preorderSwitch_of_exists {t : Ty} {e : ProgramExpr τ t}
    (h : ∃ c ∈ cases.takeWhile (fun c => c.label ≠ .default), reachability c.node ≠ some false) :
    preorderSwitch reachability e cases = .switchStatement e (kept reachability cases) := by
  obtain ⟨c, rest, found, label⟩ := kept_of_exists h
  rw [preorderSwitch, filterCases_nil, found]
  split
  · rename_i none
    cases none
  · rename_i only
    cases only
    exact absurd rfl label
  · rfl

/-- Otherwise nothing is kept, or the default case alone. -/
theorem kept_of_forall
    (h : ∀ c ∈ cases.takeWhile (fun c => c.label ≠ .default), reachability c.node = some false) :
    kept reachability cases = [] ∨ ∃ c, kept reachability cases = [c] ∧ c.label = .default := by
  induction cases with
  | nil => exact .inl rfl
  | cons c cases ih =>
    by_cases default : c.label = .default
    · right
      refine ⟨c, ?_, default⟩
      rw [kept, if_neg fun h => h.1 default, if_pos (.inl default)]
    · rw [List.takeWhile_cons, if_pos (by simpa using default)] at h
      rw [kept, if_pos ⟨default, h c List.mem_cons_self⟩]
      exact ih fun d hd => h d (List.mem_cons_of_mem c hd)

theorem switchCases_eq_map (methodCall : τ → Statement τ α) :
    switchCases reachability methodCall cases = cases.map (switchCase reachability methodCall) := by
  induction cases with
  | nil => rfl
  | cons c cases ih => rw [switchCases, ih, List.map_cons]

@[simp] theorem label_switchCase (methodCall : τ → Statement τ α) (c : SwitchCase τ α) :
    (switchCase reachability methodCall c).label = c.label := by
  cases c
  rfl

@[simp] theorem node_switchCase (methodCall : τ → Statement τ α) (c : SwitchCase τ α) :
    (switchCase reachability methodCall c).node = c.node := by
  cases c
  rfl

/-- The pass over the cases themselves does not change which of them go away. -/
theorem exists_switchCases (methodCall : τ → Statement τ α) :
    (∃ c ∈ (switchCases reachability methodCall cases).takeWhile (fun c => c.label ≠ .default),
        reachability c.node ≠ some false) ↔
      ∃ c ∈ cases.takeWhile (fun c => c.label ≠ .default), reachability c.node ≠ some false := by
  rw [switchCases_eq_map, List.takeWhile_map]
  simp [Function.comp_def]

/-- A statement that remains makes the applications of its rewritten expression. -/
theorem ownApplications_of_remains {s : ControlStatement} (remains : s.Remains reachability)
    (w : World) : (controlStatement reachability s).ownApplications b w =
      (s.ownExpression.map fun e => (expression reachability e.2).applications b w).getD [] := by
  cases s with
  | ifStatement node condition ifTrue ifFalse =>
    simp only [controlStatement, statement, preorderIf]
    split <;> rfl
  | switchStatement e cases =>
    have stays : ∃ c ∈ _, _ :=
      (exists_switchCases (preorderMethodCall reachability)).mpr remains
    rw [controlStatement, statement, preorderSwitch_of_exists stays]
    rfl
  | apply table =>
    simp only [controlStatement, statement, preorderMethodCall]
    split
    · rfl
    · split
      · split <;> rfl
      · rfl
  | empty => rfl
  | assignment left right => rfl
  | declaration name initializer => rfl
  | block components => rfl
  | call action => rfl

/-- A switch that goes away makes no applications. -/
theorem ownApplications_of_not_remains {s : ControlStatement} (gone : ¬s.Remains reachability)
    (w : World) : (controlStatement reachability s).ownApplications b w = [] := by
  cases s with
  | switchStatement e cases =>
    have dropped : ∀ c ∈ (switchCases reachability (preorderMethodCall reachability) cases).takeWhile
        (fun c => c.label ≠ .default), reachability c.node = some false := by
      intro c mem
      by_contra alive
      exact gone ((exists_switchCases _).mp ⟨c, mem, alive⟩)
    simp only [controlStatement, statement, preorderSwitch, filterCases_nil]
    rcases kept_of_forall dropped with none | ⟨⟨node, label, body⟩, only, rfl⟩
    · rw [none]
      rfl
    · rw [only]
      cases body <;> rfl
  | _ => exact absurd trivial gone

/-- The pass keeps the effects of the tables that a statement applies in its own expression, where
each application stays or changes nothing; and, if the expression names no table twice, only there. -/
theorem keepsApplications_iff (b : TableBehavior) (reachability : Node → Option Bool)
    (packets : World → Prop) (s : ControlStatement)
    (sound : ∀ w, packets w → ∀ a ∈ s.ownApplications b w, a.Sound reachability) :
    (s.Unharmed b reachability packets → s.KeepsApplications b reachability packets) ∧
      ((s.ownSites.map Prod.snd).Nodup → s.KeepsApplications b reachability packets →
        s.Unharmed b reachability packets) := by
  by_cases remains : s.Remains reachability
  · constructor
    · intro unharmed w packet
      rw [ownApplications_of_remains remains]
      cases own : s.ownExpression with
      | none => simp [ControlStatement.ownApplications, own, KeepsEffects.refl]
      | some e =>
        have same : s.ownApplications b w = e.2.applications b w := by
          simp [ControlStatement.ownApplications, own]
        have harmless : ∀ a ∈ e.2.applications b w,
            a.Sound reachability ∧ Harmless reachability b a := by
          intro a mem
          rw [← same] at mem
          exact ⟨sound w packet a mem, (unharmed w packet a mem).imp_left And.right⟩
        rw [same]
        exact (agrees_expression e.2 rfl harmless).keeps
    · intro once keeps w packet a mem
      by_cases replaced : a.Replaced reachability
      · right
        have keeps := keeps w packet
        rw [ownApplications_of_remains remains] at keeps
        cases own : s.ownExpression with
        | none => simp [ControlStatement.ownApplications, own] at mem
        | some e =>
          simp only [ControlStatement.ownApplications, ControlStatement.ownSites, own,
            Option.map_some, Option.getD_some] at mem once keeps
          exact keeps.noEffect_of_dropped (List.mem_map_of_mem mem)
            (table_not_mem_of_replaced once mem replaced w)
      · exact .inl ⟨remains, replaced⟩
  · have dropped : s.KeepsApplications b reachability packets ↔ ∀ w, packets w →
        ∀ a ∈ s.ownApplications b w, b.NoEffect a.table := by
      simp [ControlStatement.KeepsApplications, ownApplications_of_not_remains remains,
        KeepsEffects.nil_iff]
    rw [dropped]
    refine ⟨fun unharmed w packet a mem => ?_, fun _ keeps w packet a mem => ?_⟩
    · exact (unharmed w packet a mem).resolve_left fun h => remains h.1
    · exact .inr (keeps w packet a mem)

/-- Tables without entries: every packet misses, and they execute the declared default action. -/
def unconfigured : TableBehavior where
  result table _ := ⟨false, table.defaultAction.path⟩
  after table env := (table.defaultAction.run ⟨env, []⟩).env

/-- `if (table.apply().hit) {}`. -/
def hitStatement (table : P4Table) : ControlStatement :=
  .ifStatement 5 (.hit 6 table) .empty none

/-- `switch (table.apply().action_run) { other: {} }`. -/
def otherStatement (table : P4Table) : ControlStatement :=
  .switchStatement (.actionRun table) [.mk 7 (.path "other") (some [])]

theorem sound_hitStatement (table : P4Table) (w : World) :
    ∀ a ∈ (hitStatement table).ownApplications unconfigured w, a.Sound fun _ => some false := by
  intro a mem
  cases List.mem_singleton.mp mem
  intro verdict known
  cases known
  rfl

/-- The literal in place of a hit leaves out an action without an effect. -/
theorem keepsApplications_missTable :
    (hitStatement missTable).KeepsApplications unconfigured (fun _ => some false)
      fun _ => True := by
  refine (keepsApplications_iff unconfigured (fun _ => some false) (fun _ => True)
    (hitStatement missTable) fun w _ => sound_hitStatement missTable w).1 ?_
  intro w _ a mem
  cases List.mem_singleton.mp mem
  exact .inr fun env => rfl

theorem effect_portTable : ¬unconfigured.NoEffect portTable := by
  intro none
  have port : (1 : BitVec 8) = 0 := congrFun (none fun _ => default) ⟨"egress_port", .bit 8⟩
  exact absurd port (by decide)

/-- With right verdicts, a literal in place of a hit and a switch without its only case both leave out
the action that sets the port. -/
theorem drops_applications :
    (∀ w, ∀ a ∈ (hitStatement portTable).ownApplications unconfigured w,
        a.Sound fun _ => some false) ∧
      (∀ w, ((ProgramExpr.hit 6 portTable).eval unconfigured.handlers w).1 = false) ∧
      ¬(hitStatement portTable).KeepsApplications unconfigured (fun _ => some false)
        (fun _ => True) ∧
      (∀ w, (SwitchLabel.path "other").accepts (t := .string)
        ((ProgramExpr.actionRun portTable).eval unconfigured.handlers w).1 = false) ∧
      ¬(otherStatement portTable).KeepsApplications unconfigured (fun _ => some false)
        (fun _ => True) := by
  refine ⟨sound_hitStatement portTable, fun _ => rfl, ?_, fun w => ?_, ?_⟩
  · intro keeps
    have dropped := KeepsEffects.nil_iff.mp (keeps ⟨fun _ => default, []⟩ trivial)
    exact effect_portTable (dropped portTable List.mem_cons_self)
  · show (SwitchLabel.path "other").accepts (t := .string) "set_port" = false
    decide
  · intro keeps
    have dropped := KeepsEffects.nil_iff.mp (keeps ⟨fun _ => default, []⟩ trivial)
    exact effect_portTable (dropped portTable List.mem_cons_self)

end ElimDeadCode

end Flay
