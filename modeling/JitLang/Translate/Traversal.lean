import JitLang.Ir.Function

/-! # `reachable_rpo`: reverse postorder on an explicit stack

The traversal of `src/translate.rs`, statement by statement: a `visited` table, a stack of frames
(block, its successors, cursor into them) and the postorder list, which is reversed at the end. The
top of the stack is the head of the list here.

Rust indexing panics out of bounds, so a step may fail with `Failure.panic`. The `while` loop is run
with a bound on the number of iterations, three per block, and fails with `Failure.outOfFuel` where
the bound does not suffice.
-/

namespace JitLang.Translate
open Ir
set_option autoImplicit false

/-! ## Errors -/

/-- The variants of `JitError` translation can answer with, each with its message. -/
inductive JitError
  | unsupported (what : String)
  | codegen (message : String)
  deriving DecidableEq, Repr

/-- How a computation of the translator fails to return a value: with an error of its own, by an
index out of bounds, or by exceeding the model's bound on a loop. -/
inductive Failure
  | error (e : JitError)
  | panic
  | outOfFuel
  deriving DecidableEq, Repr

/-- `table[i]`. -/
def readIndex {α : Type} (table : List α) (i : ℕ) : Except Failure α :=
  match table[i]? with
  | some x => .ok x
  | none => .error .panic

/-- `table[i] = x`. -/
def writeIndex {α : Type} (table : List α) (i : ℕ) (x : α) : Except Failure (List α) :=
  if i < table.length then .ok (table.set i x) else .error .panic

theorem readIndex_of_some {α : Type} {table : List α} {i : ℕ} {x : α} (h : table[i]? = some x) :
    readIndex table i = .ok x := by
  simp [readIndex, h]

theorem writeIndex_of_lt {α : Type} {table : List α} {i : ℕ} (x : α) (h : i < table.length) :
    writeIndex table i x = .ok (table.set i x) := if_pos h

/-! ## The traversal -/

/-- The successor blocks of `block`, read from its terminator. -/
def succsOf (func : Function) (block : Block) : List Block :=
  match func.terminator block with
  | some term => term.successors
  | none => []

/-- A frame of the stack: a block, its successors, and the index of the next one to visit. -/
structure Frame where
  block : Block
  succs : List Block
  next : ℕ
  deriving DecidableEq, Repr

structure RpoState where
  visited : List Bool
  stack : List Frame
  order : List Block
  deriving DecidableEq, Repr

/-- One iteration of the `while` loop. -/
def rpoStep (func : Function) (st : RpoState) : Except Failure RpoState :=
  match st.stack with
  | [] => .error .panic
  | top :: rest =>
    if top.next < top.succs.length then do
      let succ ← readIndex top.succs top.next
      let stack := { top with next := top.next + 1 } :: rest
      if succ.index < func.blockCount then
        let seen ← readIndex st.visited succ.index
        if seen then
          return { st with stack }
        else
          let visited ← writeIndex st.visited succ.index true
          return { st with visited, stack := ⟨succ, succsOf func succ, 0⟩ :: stack }
      else
        return { st with stack }
    else
      return { st with order := st.order ++ [top.block], stack := rest }

/-- `while !stack.is_empty()`, for at most the given number of iterations. -/
def rpoLoop (func : Function) : ℕ → RpoState → Except Failure RpoState
  | 0, st => if st.stack.isEmpty then .ok st else .error .outOfFuel
  | fuel + 1, st =>
    if st.stack.isEmpty then .ok st
    else do
      let st ← rpoStep func st
      rpoLoop func fuel st

/-- The reachable blocks of `func` in reverse postorder, entry first. -/
def reachableRpo (func : Function) : Except Failure (List Block) :=
  let n := func.blockCount
  let entry := func.entry
  if n ≤ entry.index then
    .ok []
  else do
    let visited ← writeIndex (List.replicate n false) entry.index true
    let st ← rpoLoop func (3 * n) ⟨visited, [⟨entry, succsOf func entry, 0⟩], []⟩
    return st.order.reverse

end JitLang.Translate
