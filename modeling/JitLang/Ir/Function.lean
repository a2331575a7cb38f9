import JitLang.Graph.Walks

/-! # The source IR: what the translator reads of an `ir-lang` function

`ir-lang` itself is an outside crate, so a `Function` here is exactly what its accessors answer:
`block_count`, `entry`, `block_params`, `insts`, `terminator`, `inst`, `value_count`, `value_type`,
`params` and `ret`. Nothing ties the accessors together; what `Function::validate` guarantees is the
separate predicate `Function.Valid` (`JitLang.Ir.Validity`), so a `Function` may be malformed.

An `int` is its 64 bits and a `float` the 64 bits of its IEEE 754 double.
-/

namespace JitLang.Ir
set_option autoImplicit false

/-! ## Handles, types and operators -/

/-- The type of an IR value (`Type` in the source). -/
inductive Ty
  | int
  | float
  | bool
  | unit
  deriving DecidableEq, Repr

structure Value where
  index : ℕ
  deriving DecidableEq, Repr

structure Block where
  index : ℕ
  deriving DecidableEq, Repr

attribute [ext] Value Block

inductive BinOp
  | add
  | sub
  | mul
  | div
  | eq
  | ne
  | lt
  | le
  | gt
  | ge
  | and
  | or
  deriving DecidableEq, Repr

inductive UnOp
  | neg
  | not
  deriving DecidableEq, Repr

/-! ## Instructions and terminators -/

inductive Inst
  | iconst (value : BitVec 64)
  | fconst (value : BitVec 64)
  | bconst (value : Bool)
  | bin (op : BinOp) (lhs rhs : Value)
  | un (op : UnOp) (operand : Value)
  deriving DecidableEq, Repr

def Inst.uses : Inst → List Value
  | .iconst _ | .fconst _ | .bconst _ => []
  | .bin _ lhs rhs => [lhs, rhs]
  | .un _ operand => [operand]

inductive Terminator
  | ret (value : Option Value)
  | jump (target : Block) (args : List Value)
  | branch (cond : Value) (thenBlock : Block) (thenArgs : List Value) (elseBlock : Block)
      (elseArgs : List Value)
  deriving DecidableEq, Repr

/-- The values a terminator reads: the returned value, the condition, the edge arguments. -/
def Terminator.uses : Terminator → List Value
  | .ret value => value.toList
  | .jump _ args => args
  | .branch cond _ thenArgs _ elseArgs => cond :: (thenArgs ++ elseArgs)

/-- The edges of a terminator, each with the arguments it carries, `then` before `else`. -/
def Terminator.edges : Terminator → List (Block × List Value)
  | .ret _ => []
  | .jump target args => [(target, args)]
  | .branch _ thenBlock thenArgs elseBlock elseArgs => [(thenBlock, thenArgs), (elseBlock, elseArgs)]

/-- The blocks `each_successor` visits, in its order; a branch with one target for both arms names it
twice. -/
def Terminator.successors (term : Terminator) : List Block := term.edges.map Prod.fst

theorem Terminator.successors_length_le (term : Terminator) : term.successors.length ≤ 2 := by
  cases term <;> simp [successors, edges]

theorem Terminator.uses_of_edge {term : Terminator} {edge : Block × List Value}
    (hedge : edge ∈ term.edges) {u : Value} (hu : u ∈ edge.2) : u ∈ term.uses := by
  cases term with
  | ret => cases hedge
  | jump target args =>
    obtain rfl := List.mem_singleton.mp hedge
    exact hu
  | branch cond thenBlock thenArgs elseBlock elseArgs =>
    rcases List.mem_cons.mp hedge with rfl | hedge
    · exact List.mem_cons_of_mem _ (List.mem_append_left _ hu)
    · obtain rfl := List.mem_singleton.mp hedge
      exact List.mem_cons_of_mem _ (List.mem_append_right _ hu)

/-! ## Functions -/

structure Function where
  params : List Ty
  ret : Ty
  blockCount : ℕ
  entry : Block
  blockParams : Block → List Value
  insts : Block → List Value
  terminator : Block → Option Terminator
  inst : Value → Option Inst
  valueCount : ℕ
  valueType : Value → Option Ty

namespace Function
variable (func : Function)

def InRange (b : Block) : Prop := b.index < func.blockCount

instance (b : Block) : Decidable (func.InRange b) := inferInstanceAs (Decidable (_ < _))

/-- There is an edge from `b` to the in-range block `s`. -/
def Edge (b s : Block) : Prop :=
  ∃ term, func.terminator b = some term ∧ s ∈ term.successors ∧ func.InRange s

/-- `b` is reached from the entry; where the entry is out of range no block is. -/
def Reachable (b : Block) : Prop := func.InRange func.entry ∧ Graph.Reaches func.Edge func.entry b

/-- Every path from the entry to `b` goes through `d`. -/
def Dominates (d b : Block) : Prop := Graph.Dominates func.Edge func.entry d b

/-- The values block `b` defines: its parameters, then its instructions, in order. -/
def defs (b : Block) : List Value := func.blockParams b ++ func.insts b

variable {func}

theorem Reachable.inRange {b : Block} (h : func.Reachable b) : func.InRange b := by
  obtain ⟨hentry, hreach⟩ := h
  cases hreach with
  | refl => exact hentry
  | tail _ hedge => exact hedge.choose_spec.2.2

theorem Reachable.eq_zero (hcount : func.blockCount = 1) {b : Block} (h : func.Reachable b) :
    b = ⟨0⟩ := by
  have hlt : b.index < func.blockCount := h.inRange
  exact Block.ext (by rw [hcount] at hlt; exact Nat.lt_one_iff.mp hlt)

theorem Reachable.edge {b s : Block} (h : func.Reachable b) (hedge : func.Edge b s) :
    func.Reachable s := ⟨h.1, h.2.tail hedge⟩

theorem Reachable.of_dominates {d b : Block} (h : func.Reachable b) (hd : func.Dominates d b) :
    func.Reachable d := ⟨h.1, hd.reaches h.2⟩

end Function
end JitLang.Ir
