import Lift6502.Generate.Routine
import Lift6502.Proofs.Code.Traversal
import Lift6502.Proofs.Symbolic.Describes

/-!
# Temporaries and loads

Statements are `Fresh` if each temporary between two counters is assigned at most once, no other one
is, and memory is read only by such assignments.
-/

namespace Lift6502

variable {v : Variable} {b : Binding} {l : Location} {c : Carriers}

namespace Expression

@[simp] theorem readsMemory_mkBinary (op : BinOp) (l r : Expression) :
    (mkBinary op l r).readsMemory = (l.readsMemory || r.readsMemory) := by
  unfold mkBinary
  split
  · unfold foldLiterals
    split <;> rfl
  all_goals simp [readsMemory]

@[simp] theorem readsMemory_mkNot (e : Expression) : e.mkNot.readsMemory = e.readsMemory := by
  unfold mkNot
  split <;> rfl

@[simp] theorem readsMemory_mkToInt (e : Expression) : e.mkToInt.readsMemory = e.readsMemory := by
  unfold mkToInt
  split <;> rfl

@[simp] theorem readsMemory_lowByte (e : Expression) : e.lowByte.readsMemory = e.readsMemory := by
  simp [lowByte, readsMemory]

end Expression

open Expression

namespace Generator

variable {e : Expression}

theorem readsMemory_indexed {place index : Expression} (hplace : place.readsMemory = false)
    (hindex : index.readsMemory = false) (mask : UInt32) :
    (indexed place index mask).readsMemory = false := by
  simp [indexed, hplace, hindex, readsMemory]

theorem readsMemory_shift {carry : Expression} (he : e.readsMemory = false)
    (hcarry : carry.readsMemory = false)
    (kind : Arithmetic.Shift) : (Arithmetic.shift kind e carry).1.readsMemory = false ∧
      (Arithmetic.shift kind e carry).2.readsMemory = false := by
  cases kind <;> simp [Arithmetic.shift, Arithmetic.negative, he, hcarry, readsMemory]

end Generator

def Variable.temp? : Variable → Option Nat
  | .temp id => some id
  | .merge .. | .input _ | .dispatch => none

namespace Statement

variable {s : Statement} {test e : Expression} {label : Option String}

/-- Memory is read only by an assignment to a temporary, which takes the byte at an
address as it is. -/
def LoadsIntoTemp (s : Statement) : Prop :=
  (∀ e ∈ s.expressions, e.readsMemory = false) ∨
    ∃ id address, s = .assign (.temp id) (.memory address) ∧ address.readsMemory = false

/-- The temporaries that are set in a list of statements, and in the statements inside them. -/
def listTemps (body : List Statement) : List Nat :=
  (listDescendants body).flatMap fun s => s.defines.filterMap Variable.temp?

theorem listTemps_append (l k : List Statement) :
    listTemps (l ++ k) = listTemps l ++ listTemps k := by
  rw [listTemps, listDescendants_append, List.flatMap_append, listTemps, listTemps]

/-- The temporaries from `lo` up to `hi` are set at most once, no other one is, and memory is read
only into them. -/
structure Fresh (lo hi : Nat) (body : List Statement) : Prop where
  nodup : (listTemps body).Nodup
  range : ∀ id ∈ listTemps body, lo < id ∧ id ≤ hi
  loads : ∀ s ∈ listDescendants body, s.LoadsIntoTemp

variable {lo mid hi : Nat} {body before after : List Statement}

theorem fresh_nil (lo hi : Nat) : Fresh lo hi [] :=
  ⟨List.nodup_nil, fun _ h => absurd h List.not_mem_nil, fun _ h => absurd h List.not_mem_nil⟩

theorem Fresh.mono (h : Fresh lo hi body) {lo' hi' : Nat} (hlo : lo' ≤ lo) (hhi : hi ≤ hi') :
    Fresh lo' hi' body := by
  refine ⟨h.nodup, fun id hid => ?_, h.loads⟩
  have := h.range id hid
  omega

theorem Fresh.append (hbefore : Fresh lo mid before) (hafter : Fresh mid hi after) (hlo : lo ≤ mid)
    (hhi : mid ≤ hi) : Fresh lo hi (before ++ after) := by
  refine ⟨?_, ?_, ?_⟩
  · rw [listTemps_append]
    refine List.nodup_append.2 ⟨hbefore.nodup, hafter.nodup, fun i hi j hj => ?_⟩
    have := hbefore.range i hi
    have := hafter.range j hj
    omega
  · intro id hid
    rw [listTemps_append] at hid
    rcases List.mem_append.1 hid with hid | hid
    · have := hbefore.range id hid
      omega
    · have := hafter.range id hid
      omega
  · intro s hs
    rw [listDescendants_append] at hs
    exact (List.mem_append.1 hs).elim (hbefore.loads s) (hafter.loads s)

theorem Fresh.around (h : Fresh lo hi body)
    (hinside : listDescendants [s] = s :: listDescendants body) (hdefines : s.defines = [])
    (hreads : ∀ e ∈ s.expressions, e.readsMemory = false) : Fresh lo hi [s] := by
  have htemps : listTemps [s] = listTemps body := by
    rw [listTemps, hinside, List.flatMap_cons, hdefines]
    rfl
  refine ⟨htemps ▸ h.nodup, htemps ▸ h.range, fun s' hs' => ?_⟩
  rw [hinside] at hs'
  rcases List.mem_cons.1 hs' with rfl | hs'
  · exact .inl hreads
  · exact h.loads s' hs'

theorem fresh_cond {thenBranch elseBranch : List Statement}
    (ht : Fresh lo mid thenBranch) (he : Fresh mid hi elseBranch) (hlo : lo ≤ mid) (hhi : mid ≤ hi)
    (htest : test.readsMemory = false) : Fresh lo hi [.cond test thenBranch elseBranch] := by
  refine (ht.append he hlo hhi).around ?_ rfl fun e he => ?_
  · rw [listDescendants_append]
    simp [listDescendants, descendants]
  · rw [List.mem_singleton.1 he]
    exact htest

theorem fresh_loop {test : LoopTest} (hbody : Fresh lo hi body)
    (htest : ∀ e, test.condition? = some e → e.readsMemory = false) :
    Fresh lo hi [.loop test label body] := by
  refine hbody.around ?_ rfl fun e he => htest e ?_
  · simp [listDescendants, descendants]
  · simpa [expressions] using he

theorem fresh_leaf {ids : List Nat} (hleaf : s.descendants = [s])
    (hids : s.defines.filterMap Variable.temp? = ids) (hnodup : ids.Nodup)
    (hrange : ∀ id ∈ ids, lo < id ∧ id ≤ hi) (hloads : s.LoadsIntoTemp) : Fresh lo hi [s] := by
  have hlist : listDescendants [s] = [s] := by
    rw [listDescendants, hleaf, listDescendants, List.append_nil]
  have htemps : listTemps [s] = ids := by
    rw [listTemps, hlist, List.flatMap_singleton, hids]
  refine ⟨htemps ▸ hnodup, htemps ▸ hrange, fun s' hs' => ?_⟩
  rw [hlist] at hs'
  rw [List.mem_singleton.1 hs']
  exact hloads

theorem fresh_flat (hleaf : s.descendants = [s]) (hids : s.defines.filterMap Variable.temp? = [])
    (hreads : ∀ e ∈ s.expressions, e.readsMemory = false) : Fresh lo hi [s] :=
  fresh_leaf hleaf hids List.nodup_nil (fun _ h => absurd h List.not_mem_nil) (.inl hreads)

theorem fresh_testedBefore {header : List Statement} (hheader : Fresh lo mid header)
    (hbody : Fresh mid hi body)
    (hlo : lo ≤ mid) (hhi : mid ≤ hi) (htest : test.readsMemory = false) :
    Fresh lo hi [Generator.emitLoop.testedBefore test label header body] := by
  unfold Generator.emitLoop.testedBefore
  split
  · refine (fresh_loop hbody fun e he => ?_).mono hlo (Nat.le_refl hi)
    cases he
    exact htest
  · have hbreak : Fresh mid mid [Statement.breakLoop none] :=
      fresh_flat rfl rfl fun _ h => absurd h List.not_mem_nil
    have hleave : Fresh mid mid [.cond test.mkNot [.breakLoop none] []] :=
      fresh_cond hbreak (fresh_nil mid mid) (Nat.le_refl mid) (Nat.le_refl mid) (by simp [htest])
    have hrest := hleave.append hbody (Nat.le_refl mid) hhi
    exact fresh_loop (hheader.append hrest hlo hhi) fun e he => by cases he

theorem fresh_assign (hv : v.temp? = none) (he : e.readsMemory = false)
    (n : Nat) : Fresh n n [.assign v e] := by
  refine fresh_flat rfl ?_ fun e' he' => ?_
  · simp [defines, hv]
  · rw [List.mem_singleton.1 he']
    exact he

end Statement

def Binding.Plain (b : Binding) : Prop := ∀ e, b = .expr e → e.readsMemory = false

variable {e : Expression} {s : SymbolicState}

namespace Binding

theorem plain_ofExpression (h : e.readsMemory = false) : (ofExpression e).Plain := by
  intro e' he'
  cases e with
  | literal | bool => cases he'
  | var | memory | binary | unary =>
    cases he'
    exact h

theorem plain_ofVariable (v : Variable) : (ofVariable v).Plain := by
  intro e he
  cases he
  rfl

theorem plain_unresolved (origin : String) : (unresolved origin).Plain := by
  intro e he
  cases he

theorem Plain.of_expression? (h : b.Plain)
    (he : b.expression? l = some e) : e.readsMemory = false := by
  cases b with
  | literal value =>
    cases he
    split <;> rfl
  | expr e' =>
    cases he
    exact h e rfl
  | unresolved origin => cases he

end Binding

def StackEntry.Plain : StackEntry → Prop
  | .byte b => b.Plain
  | .status flags => ∀ f, (flags.get f).Plain

structure SymbolicState.Plain (s : SymbolicState) : Prop where
  get : ∀ l, (s.get l).Plain
  stack : ∀ entry ∈ s.stack, entry.Plain

namespace SymbolicState

variable {s : SymbolicState}

theorem Plain.set (h : s.Plain) (l : Location) (hb : b.Plain) : (s.set l b).Plain := by
  refine ⟨fun k => ?_, h.stack⟩
  rw [get_set]
  split
  · exact hb
  · exact h.get k

theorem Plain.setAll (h : s.Plain) {bs : List (Location × Binding)} (hbs : ∀ b ∈ bs, b.2.Plain) :
    (s.setAll bs).Plain := by
  refine ⟨fun l => ?_, by rw [stack_setAll]; exact h.stack⟩
  rcases get_setAll_cases s bs l with hmem | ⟨-, hsame⟩
  · exact hbs _ hmem
  · rw [hsame]
    exact h.get l

theorem Plain.expression? (h : s.Plain) (he : s.expression? l = some e) :
    e.readsMemory = false := (h.get l).of_expression? he

theorem Plain.push (h : s.Plain) {entry : StackEntry} (hentry : entry.Plain) :
    (s.push entry).Plain :=
  ⟨h.get, List.forall_mem_cons.2 ⟨hentry, h.stack⟩⟩

theorem Plain.pop? (h : s.Plain) {entry : StackEntry} {s' : SymbolicState}
    (hpop : s.pop? = some (entry, s')) : entry.Plain ∧ s'.Plain := by
  unfold SymbolicState.pop? at hpop
  split at hpop
  · cases hpop
  · next e rest hstack =>
    cases hpop
    have hall := List.forall_mem_cons.1 (hstack ▸ h.stack)
    exact ⟨hall.1, h.get, hall.2⟩

theorem plain_entry (inputs : RegisterSet) : (entry inputs).Plain := by
  refine ⟨fun l => ?_, fun _ h => absurd h List.not_mem_nil⟩
  rw [SymbolicState.get, entry, PerLocation.get_ofFn]
  split
  · split
    · exact Binding.plain_ofVariable _
    · exact Binding.plain_unresolved _
  · exact Binding.plain_unresolved _

end SymbolicState

theorem SymbolicState.plain_of_joinStacks {first : SymbolicState} {others : List SymbolicState}
    {block : String} {stack : List StackEntry} (hfirst : first.Plain)
    (h : joinStacks first others block = .ok stack) : ∀ entry ∈ stack, entry.Plain := by
  unfold joinStacks at h
  split at h
  · cases h
  · cases h
    intro entry hentry
    obtain ⟨k, hk, rfl⟩ := List.mem_mapIdx.1 hentry
    unfold mergeEntries
    split
    · exact hfirst.stack _ (List.getElem_mem hk)
    · split
      · intro f
        rw [PerFlag.get_ofFn]
        exact Binding.plain_unresolved _
      · exact Binding.plain_unresolved _

def PlainFlow (flow : Option SymbolicState) : Prop := ∀ s, flow = some s → s.Plain

theorem plainFlow_some (hs : s.Plain) : PlainFlow (some s) :=
  fun _ hsome => Option.some.inj hsome ▸ hs

theorem plainFlow_none : PlainFlow none := fun _ hnone => by cases hnone

theorem Carriers.get_set (c : Carriers) (l k : Location) (v : Option Variable) :
    PerLocation.get (c.set l v) k = if k = l then v else c.get k :=
  PerLocation.get_set c l k v

theorem Carriers.get_empty (l : Location) : Carriers.empty.get l = none := by
  rw [Carriers.empty, PerLocation.get_ofFn]

theorem Carriers.mem_toList : (l, v) ∈ c.toList ↔ c.get l = some v := by
  simp [Carriers.toList, Location.mem_all]

def Carriers.Lasting (c : Carriers) : Prop := ∀ l v, c.get l = some v → v.temp? = none

theorem Carriers.lasting_empty : Carriers.empty.Lasting := by
  intro l v hv
  rw [Carriers.get_empty] at hv
  cases hv

theorem Carriers.Lasting.set (h : c.Lasting) (l : Location)
    (hv : v.temp? = none) : Carriers.Lasting (c.set l (some v)) := by
  intro k u hu
  rw [Carriers.get_set] at hu
  split at hu
  · cases hu
    exact hv
  · exact h k u hu

def Generator.PlainJoin (r : SymbolicState × List Statement × List Statement) : Prop :=
  r.1.Plain ∧ ∀ n, Statement.Fresh n n r.2.1 ∧ Statement.Fresh n n r.2.2

/-- The locations do not travel between the blocks of a dispatch loop in temporaries. -/
def Generator.Lasting (c : Generator) : Prop :=
  ∀ plan, c.dispatch = some plan → ∀ l, (plan.carriers.get l).temp? = none

end Lift6502
