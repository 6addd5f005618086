import Lift6502.Run.Evaluator
import Lift6502.Tree.Structure

/-!
# Running control trees

`ControlNode.run` goes through a tree and `Graph.follow` along the exits of blocks. What a block
does is left to a `BlockMachine`.
-/

namespace Lift6502

/-- How a block ends: control goes on at an exit, or the routine is over. -/
inductive BlockEnd (σ : Type) where
  | on (s : σ)
  | finished (s : σ)
  deriving Repr

/-- A meaning of blocks on states `σ`; a run can break off with some `ε`. -/
structure BlockMachine (ε σ : Type) where
  run : BlockId → σ → Except ε (BlockEnd σ)
  /-- Whether the branch at the end of a block is taken, in the state after the block. -/
  taken : BlockId → σ → Bool
  /-- A loop takes more passes than it may. -/
  limit : ε

/-- Where control is after some nodes. -/
inductive Way where
  /-- Behind them. -/
  | onward
  | breakLoop (label : Option String)
  | continueLoop (label : Option String)
  /-- The routine is over. -/
  | finished
  /-- At a block outside the nodes. -/
  | away (target : BlockId)
  deriving DecidableEq, Repr

variable {ε σ : Type}

namespace Condition

/-- Whether a condition holds when `next` is the block that a dispatch loop runs next. -/
def holds (M : BlockMachine ε σ) (next : BlockId) (s : σ) : Condition → Bool
  | .branch b taken => M.taken b s == taken
  | .dispatch b => b == next

end Condition

/-- Passes until one ends the loop, at most `fuel` of them. -/
def runPasses {ρ : Type} (limit : ε) (pass : σ → Except ε (σ ⊕ ρ)) : Nat → σ → Except ε ρ
  | 0, _ => .error limit
  | fuel + 1, s =>
    match pass s with
    | .error e => .error e
    | .ok (.inl s) => runPasses limit pass fuel s
    | .ok (.inr r) => .ok r

namespace ControlNode

open Evaluator (isFor)

/-- What a loop does when its body ends: one more pass, or the end of the loop. A jump back skips
the test of a loop that is tested at its end. -/
def afterBody (kind : LoopKind) (again : σ → Bool) (label : Option String) :
    Way × σ → σ ⊕ (Way × σ)
  | (.onward, s) => if kind = .postTest ∧ again s = false then .inr (.onward, s) else .inl s
  | (.continueLoop target, s) =>
    if isFor label target then .inl s else .inr (.continueLoop target, s)
  | (.breakLoop target, s) =>
    if isFor label target then .inr (.onward, s) else .inr (.breakLoop target, s)
  | (.finished, s) => .inr (.finished, s)
  | (.away b, s) => .inr (.away b, s)

def pass (M : BlockMachine ε σ) (kind : LoopKind) (header : BlockId) (again : σ → Bool)
    (label : Option String) (body : σ → Except ε (Way × σ)) (s : σ) : Except ε (σ ⊕ (Way × σ)) :=
  match kind with
  | .preTest =>
    match M.run header s with
    | .error e => .error e
    | .ok (.finished s) => .ok (.inr (.finished, s))
    | .ok (.on s) =>
      if again s then (body s).map (afterBody kind again label) else .ok (.inr (.onward, s))
  | .postTest | .infinite => (body s).map (afterBody kind again label)

mutual

/-- Runs a node. Every loop in it takes at most `fuel` passes each time it is entered. -/
def run (M : BlockMachine ε σ) (fuel : Nat) (next : BlockId) : ControlNode → σ → Except ε (Way × σ)
  | .block b, s =>
    match M.run b s with
    | .error e => .error e
    | .ok (.on s) => .ok (.onward, s)
    | .ok (.finished s) => .ok (.finished, s)
  | .cond c thenBranch elseBranch _, s =>
    if c.holds M next s then runAll M fuel next thenBranch s else runAll M fuel next elseBranch s
  | .loop kind header condition body label _, s =>
    let again := fun s => condition.all (Condition.holds M next s)
    runPasses M.limit (pass M kind header again label (runAll M fuel next body)) fuel s
  | .goto b, s => .ok (.away b, s)
  | .breakLoop label, s => .ok (.breakLoop label, s)
  | .continueLoop label, s => .ok (.continueLoop label, s)

/-- Runs nodes one after the other, up to the first that control does not leave at its end. -/
def runAll (M : BlockMachine ε σ) (fuel : Nat) (next : BlockId) :
    List ControlNode → σ → Except ε (Way × σ)
  | [], s => .ok (.onward, s)
  | n :: rest, s =>
    match run M fuel next n s with
    | .error e => .error e
    | .ok (.onward, s) => runAll M fuel next rest s
    | .ok r => .ok r

end

theorem runAll_append (M : BlockMachine ε σ) (fuel : Nat) (next : BlockId)
    (l k : List ControlNode) (s : σ) :
    runAll M fuel next (l ++ k) s =
      match runAll M fuel next l s with
      | .error e => .error e
      | .ok (.onward, s) => runAll M fuel next k s
      | .ok r => .ok r := by
  induction l generalizing s with
  | nil => simp [runAll]
  | cons n rest ih =>
    rw [List.cons_append, runAll, runAll]
    rcases run M fuel next n s with e | ⟨way, s'⟩
    · rfl
    · cases way with
      | onward => exact ih s'
      | breakLoop | continueLoop | finished | away => rfl

end ControlNode

namespace Graph

/-- The exit that control takes after a block. A conditional branch goes one of two ways; any other
block has one exit at most. -/
def exitAfter (g : Graph) (M : BlockMachine ε σ) (b : BlockId) (s : σ) : Option BlockId :=
  let block := g.block b
  if block.isConditional then if M.taken b s then block.branch else block.fallThrough
  else block.fallThrough.or block.branch

/-- Runs at most `fuel` blocks along the exits, until the routine is over or control gets to a block
that is not one of its `members`. -/
def follow (g : Graph) (M : BlockMachine ε σ) (members : BlockSet) :
    Nat → BlockId → σ → Except ε (Way × σ)
  | 0, _, _ => .error M.limit
  | fuel + 1, b, s =>
    match M.run b s with
    | .error e => .error e
    | .ok (.finished s) => .ok (.finished, s)
    | .ok (.on s) =>
      match g.exitAfter M b s with
      | none => .ok (.finished, s)
      | some t => if t ∈ members then g.follow M members fuel t s else .ok (.away t, s)

theorem follow_mono {g : Graph} {M : BlockMachine ε σ} {members : BlockSet} {n m : Nat}
    (hle : n ≤ m) {b : BlockId} {s : σ} (hne : g.follow M members n b s ≠ .error M.limit) :
    g.follow M members m b s = g.follow M members n b s := by
  induction n generalizing m b s with
  | zero => exact absurd rfl hne
  | succ n ih =>
    obtain ⟨m, rfl⟩ : ∃ k, m = k + 1 := ⟨m - 1, by omega⟩
    rw [follow] at hne
    rw [follow, follow]
    rcases hrun : M.run b s with e | (s1 | s1)
    · rfl
    · simp only [hrun] at hne ⊢
      rcases hexit : g.exitAfter M b s1 with _ | t
      · rfl
      · simp only [hexit] at hne ⊢
        split
        · next hin =>
          rw [if_pos hin] at hne
          exact ih (by omega) hne
        · rfl
    · rfl

end Graph

end Lift6502
