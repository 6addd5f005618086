import Lift6502.Proofs.Code.Arithmetic
import Lift6502.Proofs.Run.Core
import Lift6502.Symbolic.State

/-!
# What a symbolic state says about the processor

Every location with a value in the state holds it in the processor, and the stacks above a base are
the same.
-/

namespace Lift6502

open Expression

def Location.Fits (l : Location) (w : UInt32) : Prop := l.isFlag = true → ∃ b : Bool, w = b.toUInt32

theorem Cpu.fits_value (c : Cpu) (l : Location) : l.Fits (c.value l) := by
  intro h
  cases l with
  | register r => cases h
  | flag f => exact ⟨c.status.get f, rfl⟩

variable {e : Expression}

namespace Binding

def Holds (known : Known) (b : Binding) (l : Location) (w : UInt32) : Prop :=
  ∀ e, b.expression? l = some e → e.HasValue known w

variable {known known' : Known} {b : Binding} {l : Location} {w : UInt32}

theorem Holds.mono (h : b.Holds known l w) (hk : known.Le known') : b.Holds known' l w :=
  fun e he => (h e he).mono hk

theorem holds_unresolved (origin : String) : (unresolved origin).Holds known l w :=
  fun e he => by cases he

theorem holds_ofVariable {v : Variable} (h : known v = some w) :
    (ofVariable v).Holds known l w := by
  intro e he
  cases he
  exact .var h

theorem holds_literal (hfits : l.Fits w) : (literal w).Holds known l w := by
  intro e he
  cases he
  by_cases hflag : l.isFlag
  · obtain ⟨b, rfl⟩ := hfits hflag
    rw [if_pos hflag]
    cases b <;> exact .bool _
  · rw [if_neg hflag]
    exact .literal w

theorem holds_ofExpression (hfits : l.Fits w) (h : e.HasValue known w) :
    (ofExpression e).Holds known l w := by
  cases e with
  | literal w' =>
    cases h
    exact holds_literal hfits
  | bool b =>
    cases h
    exact holds_literal hfits
  | var | memory | binary | unary =>
    intro e' he'
    cases he'
    exact h

end Binding

namespace StackEntry

/-- The entry describes a byte on the stack; a status entry describes the flags in it. -/
def Holds (known : Known) : StackEntry → UInt8 → Prop
  | .byte b, pushed => b.Holds known .a pushed.toUInt32
  | .status flags, pushed => ∀ f,
      (flags.get f).Holds known (.flag f) ((Status.ofByte pushed).get f).toUInt32

variable {known known' : Known} {entry : StackEntry} {pushed : UInt8}

theorem Holds.mono (h : entry.Holds known pushed) (hk : known.Le known') :
    entry.Holds known' pushed := by
  cases entry with
  | byte b => exact Binding.Holds.mono h hk
  | status flags => exact fun f => (h f).mono hk

end StackEntry

def StackDescribes (known : Known) (base : List UInt8) : List StackEntry → List UInt8 → Prop
  | [], bytes => bytes = base
  | _ :: _, [] => False
  | entry :: rest, byte :: bytes => entry.Holds known byte ∧ StackDescribes known base rest bytes

namespace StackDescribes

variable {known known' : Known} {base bytes : List UInt8} {entries : List StackEntry}

theorem mono (h : StackDescribes known base entries bytes) (hk : known.Le known') :
    StackDescribes known' base entries bytes := by
  induction entries generalizing bytes with
  | nil => exact h
  | cons entry rest ih =>
    cases bytes with
    | nil => exact h
    | cons byte bytes => exact ⟨h.1.mono hk, ih h.2⟩

theorem of_cons {entry : StackEntry} (h : StackDescribes known base (entry :: entries) bytes) :
    ∃ byte rest, bytes = byte :: rest ∧ entry.Holds known byte ∧
      StackDescribes known base entries rest := by
  cases bytes with
  | nil => exact h.elim
  | cons byte rest => exact ⟨byte, rest, rfl, h⟩

end StackDescribes

namespace SymbolicState

structure Describes (known : Known) (s : SymbolicState) (c : Core) (base : List UInt8) : Prop where
  location : ∀ l, (s.get l).Holds known l (c.cpu.value l)
  stack : StackDescribes known base s.stack c.stack

variable {known known' : Known} {s : SymbolicState} {c c' : Core} {base : List UInt8}

theorem get_set (s : SymbolicState) (l k : Location) (b : Binding) :
    (s.set l b).get k = if k = l then b else s.get k :=
  PerLocation.get_set s.bindings l k b

@[simp] theorem stack_set (s : SymbolicState) (l : Location) (b : Binding) :
    (s.set l b).stack = s.stack := rfl

theorem get_setAll_cases (s : SymbolicState) (bs : List (Location × Binding)) (l : Location) :
    (l, (s.setAll bs).get l) ∈ bs ∨ (∀ b, (l, b) ∉ bs) ∧ (s.setAll bs).get l = s.get l := by
  induction bs generalizing s with
  | nil => exact .inr ⟨fun b => List.not_mem_nil, rfl⟩
  | cons b bs ih =>
    have hset : s.setAll (b :: bs) = (s.set b.1 b.2).setAll bs := rfl
    rw [hset]
    rcases ih (s.set b.1 b.2) with h | ⟨hnot, h⟩
    · exact .inl (List.mem_cons_of_mem b h)
    · rw [h, get_set]
      by_cases hl : l = b.1
      · rw [if_pos hl, hl]
        exact .inl List.mem_cons_self
      · rw [if_neg hl]
        refine .inr ⟨fun b' hb' => ?_, rfl⟩
        rcases List.mem_cons.1 hb' with rfl | hb'
        · exact hl rfl
        · exact hnot b' hb'

@[simp] theorem stack_setAll (s : SymbolicState) (bs : List (Location × Binding)) :
    (s.setAll bs).stack = s.stack := by
  induction bs generalizing s with
  | nil => rfl
  | cons b bs ih => exact (ih (s.set b.1 b.2)).trans (stack_set s b.1 b.2)

namespace Describes

variable (h : s.Describes known c base)

include h

theorem mono (hk : known.Le known') : s.Describes known' c base :=
  ⟨fun l => (h.location l).mono hk, h.stack.mono hk⟩

theorem hasValue {l : Location} (he : s.expression? l = some e) :
    e.HasValue known (c.cpu.value l) :=
  h.location l e he

theorem of_read {l : Location} {block : String}
    (he : s.read l block = .ok e) : e.HasValue known (c.cpu.value l) := by
  unfold SymbolicState.read at he
  split at he
  · next e' he' =>
    cases he
    exact h.hasValue he'
  · cases he

theorem update {t : SymbolicState} (hstack : t.stack = s.stack)
    (hstack' : c'.stack = c.stack) (hl : ∀ l, (t.get l).Holds known l (c'.cpu.value l) ∨
      t.get l = s.get l ∧ c'.cpu.value l = c.cpu.value l) : t.Describes known c' base := by
  refine ⟨fun l => ?_, ?_⟩
  · rcases hl l with hl | ⟨ht, hv⟩
    · exact hl
    · rw [ht, hv]
      exact h.location l
  · rw [hstack, hstack']
    exact h.stack

end Describes

end SymbolicState

end Lift6502
