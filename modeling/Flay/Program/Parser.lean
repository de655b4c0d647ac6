import Flay.ControlPlane.Objects
import Flay.Program.Semantics
import Mathlib.Logic.Relation

/-! Parsers: their states, the select expressions that lead from one state to another, and how they
run. -/

namespace Flay

/-- The components of a list expression, by their types. -/
inductive Components (F : Ty → Type) : List Ty → Type
  | nil : Components F []
  | cons {t : Ty} {types : List Ty} (head : F t) (tail : Components F types) :
      Components F (t :: types)

namespace Components

variable {F G : Ty → Type}

def map (f : {t : Ty} → F t → G t) : {types : List Ty} → Components F types → Components G types
  | _, .nil => .nil
  | _, .cons head tail => .cons (f head) (tail.map f)

/-- Whether all pairs of components are related. -/
def all₂ (f : {t : Ty} → F t → G t → Bool) :
    {types : List Ty} → Components F types → Components G types → Bool
  | _, .nil, .nil => true
  | _, .cons head tail, .cons head' tail' => f head head' && all₂ f tail tail'

def Forall (P : {t : Ty} → F t → Prop) : {types : List Ty} → Components F types → Prop
  | _, .nil => True
  | _, .cons head tail => P head ∧ tail.Forall P

end Components

/-- A component of a keyset. -/
inductive KeysetComponent (F : Ty → Type) : Ty → Type
  | expression {t : Ty} (e : F t) : KeysetComponent F t
  | mask {s : Bool} {w : Nat} (left right : F (.bits s w)) : KeysetComponent F (.bits s w)
  | range {s : Bool} {w : Nat} (left right : F (.bits s w)) : KeysetComponent F (.bits s w)
  | default {t : Ty} : KeysetComponent F t

namespace KeysetComponent

variable {F G : Ty → Type}

def map (f : {t : Ty} → F t → G t) : {t : Ty} → KeysetComponent F t → KeysetComponent G t
  | _, .expression e => .expression (f e)
  | _, .mask left right => .mask (f left) (f right)
  | _, .range left right => .range (f left) (f right)
  | _, .default => .default

/-- Whether a value of the select expression is in the set. -/
def accepts : {t : Ty} → KeysetComponent Ty.Val t → t.Val → Bool
  | _, .expression value, v => decide (v = value)
  | _, .mask left right, v => decide (v &&& right = left &&& right)
  | _, .range (s := s) left right, v =>
    BinaryOp.lessEqual s left v && BinaryOp.lessEqual s v right
  | _, .default, _ => true

end KeysetComponent

/-- The type of the elements of a value set. -/
inductive ElementType : List Ty → Type
  | base (t : Ty) : ElementType [t]
  | struct (fields : List (String × Ty)) : ElementType (fields.map Prod.snd)

/-- The labels of the variables that `createSymbolicExpression` makes. -/
def ElementType.labels (label : String) :
    {types : List Ty} → ElementType types → Components (fun _ => SymbolLabel) types
  | _, .base _ => .cons (.dataPlane label) .nil
  | _, .struct fields => fieldLabels fields
where
  fieldLabels : (fields : List (String × Ty)) →
      Components (fun _ => SymbolLabel) (fields.map Prod.snd)
    | [] => .nil
    | (field, _) :: fields => .cons (.dataPlane (label ++ "_" ++ field)) (fieldLabels fields)

structure P4ValueSet (types : List Ty) where
  controlPlaneName : String
  elementType : ElementType types

def P4ValueSet.labels {types : List Ty} (set : P4ValueSet types) :
    Components (fun _ => SymbolLabel) types :=
  set.elementType.labels ("pvs_" ++ set.controlPlaneName)

/-- The keyset of a select case. -/
inductive Keyset (types : List Ty)
  | default
  | valueSet (set : P4ValueSet types)
  | components (l : Components (KeysetComponent (ProgramExpr Empty)) types)

structure SelectCase (types : List Ty) where
  keyset : Keyset types
  state : String

structure SelectExpression where
  types : List Ty
  select : Components (ProgramExpr Empty) types
  selectCases : List (SelectCase types)

/-- Where a parser state leads to. -/
inductive Transition
  | select (selectExpression : SelectExpression)
  | path (state : String)

/-- A component of a parser state: a statement, or the call of an extern out of `ε`. -/
inductive ParserComponent (ε : Type)
  | statement (s : Statement Empty Empty)
  | externCall (call : ε)

/-- A state of a parser. The transition of `accept` and `reject` is never looked at. -/
structure ParserState (ε : Type) where
  name : String
  cloneId : Int
  components : List (ParserComponent ε)
  selectExpression : Transition

/-- `accept` and `reject` end a parser. -/
def ParserState.isFinal {ε : Type} (state : ParserState ε) : Bool :=
  state.name == "accept" || state.name == "reject"

structure P4Parser (ε : Type) where
  states : List (ParserState ε)

def P4Parser.findDecl {ε : Type} (p : P4Parser ε) (name : String) : Option (ParserState ε) :=
  p.states.find? fun state => state.name == name

/-- The states that a transition leads to. -/
def Transition.targets : Transition → List String
  | .select e => e.selectCases.map SelectCase.state
  | .path state => [state]

def Keyset.isDefault {types : List Ty} : Keyset types → Bool
  | .default => true
  | _ => false

/-- The states that a transition leads to by a case other than the default one, or directly. -/
def Transition.entered : Transition → List String
  | .select e => (e.selectCases.filter fun c => !c.keyset.isDefault).map SelectCase.state
  | .path state => [state]

namespace P4Parser

variable {ε : Type} (p : P4Parser ε)

/-- One state leads to another. -/
def Edge (a b : String) : Prop :=
  ∃ state, p.findDecl a = some state ∧ state.isFinal = false ∧ b ∈ state.selectExpression.targets

/-- One state leads to another by a case other than the default one, or directly. -/
def Enters (a b : String) : Prop :=
  ∃ state, p.findDecl a = some state ∧ state.isFinal = false ∧ b ∈ state.selectExpression.entered

/-- A path from one state ends by entering another. -/
def Reenters (a b : String) : Prop := ∃ c, Relation.ReflTransGen p.Edge a c ∧ p.Enters c b

def cloneId (name : String) : Option Int := (p.findDecl name).map ParserState.cloneId

/-- No path enters two states with one clone id, the start state counted as entered. -/
def DistinctIds : Prop :=
  ∀ a b, a = "start" ∨ (∃ c, p.Enters c a) → p.Reenters a b → p.cloneId a ≠ p.cloneId b

end P4Parser

/-! ### Runs -/

section Runs

variable {ε : Type}

/-- What a call of an extern does. -/
abbrev ExternEffect (ε : Type) : Type := ε → World → World

def ParserComponent.exec (externs : ExternEffect ε) : ParserComponent ε → World → World
  | .statement s, w => s.exec Handlers.none w
  | .externCall call, w => externs call w

/-- The value of an expression, which reading the variables does not change. -/
def ProgramExpr.value (w : World) {t : Ty} (e : ProgramExpr Empty t) : t.Val :=
  (e.eval Handlers.none w).1

/-- Whether the values of a select expression are in a keyset. What a value set holds is the same
for a whole run. -/
def Keyset.accepts {types : List Ty} (ρ : Valuation) (w : World) :
    Keyset types → Components Ty.Val types → Bool
  | .default, _ => true
  | .valueSet set, values =>
    set.labels.all₂ (fun {t} label v => decide (v = ρ ⟨label, t⟩)) values &&
      ρ (getParserValueSetConfigured set.controlPlaneName)
  | .components l, values =>
    l.all₂ (fun keyset v => (keyset.map (ProgramExpr.value w)).accepts v) values

/-- The state of the first case that matches. -/
def firstMatch {types : List Ty} (ρ : Valuation) (w : World) (values : Components Ty.Val types) :
    List (SelectCase types) → Option String
  | [] => none
  | c :: selectCases =>
    if c.keyset.accepts ρ w values then some c.state else firstMatch ρ w values selectCases

/-- Where a select expression leads to. -/
def SelectExpression.target (ρ : Valuation) (e : SelectExpression) (w : World) : Option String :=
  firstMatch ρ w (e.select.map (ProgramExpr.value w)) e.selectCases

namespace P4Parser

variable (p : P4Parser ε) (externs : ExternEffect ε) (ρ : Valuation)

/-- The run of a parser from a state, for at most the given number of states. A select expression
without a match ends it. -/
def run : Nat → ParserState ε → World → Option World
  | 0, _, _ => none
  | fuel + 1, state, w =>
    if state.isFinal then some w
    else
      let w := state.components.foldl (fun w c => c.exec externs w) w
      match state.selectExpression with
      | .path target => (p.findDecl target).bind fun decl => run fuel decl w
      | .select e =>
        match e.target ρ w with
        | none => some w
        | some target => (p.findDecl target).bind fun decl => run fuel decl w

end P4Parser

end Runs

end Flay
