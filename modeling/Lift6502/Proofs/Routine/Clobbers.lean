import Lift6502.Proofs.Routine.Closure
import Mathlib.Algebra.Group.Action.Defs
import Mathlib.Data.List.GetD

/-!
# What routines clobber

A routine clobbers what each of its blocks writes and what every routine clobbers that it calls or
hands control to.
-/

namespace Lift6502

open RegisterBlock RegisterSet

variable {r : Register} {b : RegisterBlock} {rs : Routines}

namespace RegisterSet

variable {α : Type}

theorem mem_foldl_iff {f : RegisterSet → α → RegisterSet} {p : α → Prop}
    (hf : ∀ s a, r ∈ f s a ↔ r ∈ s ∨ p a) (l : List α) (s : RegisterSet) :
    r ∈ l.foldl f s ↔ r ∈ s ∨ ∃ a ∈ l, p a := by
  induction l generalizing s with
  | nil => simp
  | cons a rest ih => rw [List.foldl_cons, ih, hf, or_assoc, List.exists_mem_cons_iff]

theorem length_toList_le (s : RegisterSet) : s.toList.length ≤ 3 := List.length_filter_le _ _

theorem empty_subset (s : RegisterSet) : ∀ r ∈ (∅ : RegisterSet), r ∈ s :=
  fun r hr => absurd hr (not_mem_empty r)

theorem length_toList_lt {s t : RegisterSet} (h : ∀ r ∈ s, r ∈ t) (hne : s ≠ t) :
    s.toList.length < t.toList.length := by
  -- There are three registers, so that all pairs of sets can be tried.
  obtain ⟨a, x, y⟩ := s
  obtain ⟨a', x', y'⟩ := t
  have ha := h .a
  have hx := h .x
  have hy := h .y
  revert ha hx hy hne
  clear h
  revert a x y a' x' y'
  decide

theorem ordered {κ : Type} {equations : Equations κ RegisterSet}
    (single : ∀ {e e'}, e ∈ equations → e' ∈ equations → e.1 = e'.1 → e.2 = e'.2)
    (mono : ∀ {e values more}, e ∈ equations → (∀ k, ∀ r ∈ values k, r ∈ more k) → ∀ r ∈ e.2 values,
      r ∈ e.2 more) : equations.Monotone (fun s t => ∀ r ∈ s, r ∈ t) (·.toList.length) :=
  ⟨fun _ _ hr => hr, fun hst htu r hr => htu r (hst r hr), length_toList_lt, single, mono⟩

end RegisterSet

def RegisterStep.ownWrites : RegisterStep → RegisterSet
  | plain _ writes => writes
  | call _ writes => writes

namespace RegisterBlock

theorem mem_writesThrough {clobbers : Nat → RegisterSet} : r ∈ b.writesThrough clobbers ↔
      (∃ step ∈ b.steps, r ∈ step.ownWrites) ∨
        ∃ n, ((∃ writes, .call n writes ∈ b.steps) ∨ .routine n ∈ b.onward) ∧ r ∈ clobbers n := by
  unfold writesThrough
  rw [mem_foldl_iff (p := fun onward => ∃ n, onward = .routine n ∧ r ∈ clobbers n),
    mem_foldl_iff (p := fun step => r ∈ step.ownWrites ∨
      ∃ n writes, step = .call n writes ∧ r ∈ clobbers n)]
  · constructor
    · rintro ((hr | ⟨step, hstep, hr | ⟨n, writes, rfl, hr⟩⟩) | ⟨onward, honward, n, rfl, hr⟩)
      · exact absurd hr (not_mem_empty r)
      · exact .inl ⟨step, hstep, hr⟩
      · exact .inr ⟨n, .inl ⟨writes, hstep⟩, hr⟩
      · exact .inr ⟨n, .inr honward, hr⟩
    · rintro (⟨step, hstep, hr⟩ | ⟨n, ⟨writes, hstep⟩ | honward, hr⟩)
      · exact .inl (.inr ⟨step, hstep, .inl hr⟩)
      · exact .inl (.inr ⟨_, hstep, .inr ⟨n, writes, rfl, hr⟩⟩)
      · exact .inr ⟨_, honward, n, rfl, hr⟩
  · rintro s (⟨reads, writes⟩ | ⟨n, writes⟩) <;> simp [RegisterStep.ownWrites, or_assoc]
  · rintro s (target | n) <;> simp

end RegisterBlock

namespace Interface

variable {flows : List RoutineFlow} {interfaces : List Interface} {n : Nat} {f : RoutineFlow}
  {interfaces' : List Interface}

/-! ## One round -/

theorem number_mapIdx (h : flows[n]? = some f) (change : Nat → RoutineFlow → Interface) :
    number (flows.mapIdx change) n = change n f := by
  rw [number, List.getD_eq_getElem?_getD, List.getElem?_mapIdx, h]
  rfl

theorem number_clobberRound (h : flows[n]? = some f) : number (clobberRound flows interfaces) n =
      { number interfaces n with
        clobbers := f.blocks.foldl
          (fun s b => s.union (b.writesThrough fun callee => (number interfaces callee).clobbers))
          (number interfaces n).clobbers } :=
  number_mapIdx h _

theorem number_of_length_le (h : interfaces.length ≤ n) : number interfaces n = {} := by
  rw [number, List.getD_eq_getElem?_getD, List.getElem?_eq_none h]
  rfl

theorem ext_number (hlength : interfaces.length = interfaces'.length)
    (h : ∀ n < interfaces.length, number interfaces n = number interfaces' n) :
    interfaces = interfaces' := by
  refine List.ext_getElem hlength fun k hk hk' => ?_
  have hnumber := h k hk
  rwa [number, number, List.getD_eq_getElem _ _ hk, List.getD_eq_getElem _ _ hk'] at hnumber

theorem mem_foldl_writesThrough {blocks : List RegisterBlock} {clobbers : Nat → RegisterSet}
    {s : RegisterSet} :
    r ∈ blocks.foldl (fun s b => s.union (b.writesThrough clobbers)) s ↔
      r ∈ s ∨ ∃ b ∈ blocks, r ∈ b.writesThrough clobbers :=
  mem_foldl_iff (p := fun b : RegisterBlock => r ∈ b.writesThrough clobbers)
    (fun _ _ => mem_union) _ _

theorem mem_clobberRound (h : flows[n]? = some f) :
    r ∈ (number (clobberRound flows interfaces) n).clobbers ↔ r ∈ (number interfaces n).clobbers ∨
        ∃ b ∈ f.blocks, r ∈ b.writesThrough fun callee => (number interfaces callee).clobbers := by
  rw [number_clobberRound h]
  exact mem_foldl_writesThrough

/-! ## Rounds and sweeps -/

section

variable {value : Nat → RoutineFlow → (Nat → RegisterSet) → RegisterSet}

/-- The equations that sweeps over the routines solve in place. -/
def equations (flows : List RoutineFlow)
    (value : Nat → RoutineFlow → (Nat → RegisterSet) → RegisterSet) : Equations Nat RegisterSet :=
  flows.mapIdx fun n f => (n, value n f)

theorem exists_of_mem_equations {e : Nat × ((Nat → RegisterSet) → RegisterSet)}
    (he : e ∈ equations flows value) : ∃ n f, flows[n]? = some f ∧ e = (n, value n f) := by
  obtain ⟨n, hn, rfl⟩ := List.mem_mapIdx.1 he
  exact ⟨n, _, List.getElem?_eq_getElem hn, rfl⟩

theorem rounds_equations (field : Interface → RegisterSet) (hempty : field {} = ∅)
    (hmono : ∀ n f, flows[n]? = some f → ∀ {values more : Nat → RegisterSet},
      (∀ k, ∀ r ∈ values k, r ∈ more k) → ∀ r ∈ value n f values, r ∈ value n f more)
    {round : List Interface → List Interface} {start : List Interface} {p : List Interface → Prop}
    (hp : ∀ l, p l → l.length = flows.length) (hstep : ∀ l, p l → p (round l))
    (hkey : ∀ l, p l → ∀ n f, flows[n]? = some f → field (number (round l) n) = value n f fun k =>
      field (number l k))
    (hfixed : ∀ l, p l → ∀ n f, flows[n]? = some f → field (number l n) =
      field (number (round l) n) → number (round l) n = number l n) (hstart : p start)
    (hbottom : ∀ n, field (number start n) = ∅) :
    (equations flows value).Rounds (fun s t => ∀ r ∈ s, r ∈ t) (·.toList.length) 3 round
      (fun l n => field (number l n)) p start := by
  have hkeys : ∀ {n} (hn : n < flows.length), (n, value n flows[n]) ∈ equations flows value :=
    fun hn => List.mem_mapIdx.2 ⟨_, hn, rfl⟩
  refine ⟨ordered (fun {e e'} he he' heq => ?_) fun {e _ _} he hmore => ?_,
    length_toList_le, hstart, fun n s => ?_, hstep, fun l hl e he => ?_,
      fun l hl n hn s => ?_,
    fun l hl hall => ?_⟩
  · obtain ⟨n, f, hf, rfl⟩ := exists_of_mem_equations he
    obtain ⟨n', f', hf', rfl⟩ := exists_of_mem_equations he'
    obtain rfl : n = n' := heq
    rw [Option.some.inj (hf.symm.trans hf')]
  · obtain ⟨n, f, hf, rfl⟩ := exists_of_mem_equations he
    exact hmono n f hf hmore
  · rw [hbottom]
    exact empty_subset s
  · obtain ⟨n, f, hf, rfl⟩ := exists_of_mem_equations he
    exact hkey l hl n f hf
  · have hout : flows.length ≤ n := Nat.le_of_not_lt fun hlt => hn _ (hkeys hlt) rfl
    rw [number_of_length_le ((hp _ (hstep l hl)).trans_le hout), hempty]
    exact empty_subset s
  · refine ext_number ((hp _ (hstep l hl)).trans (hp l hl).symm) fun n hn => ?_
    have hn : n < flows.length := hp _ (hstep l hl) ▸ hn
    exact hfixed l hl n _ (List.getElem?_eq_getElem hn) (hall _ (hkeys hn))

end

variable (flows)

def clobbered : List Interface :=
  iterate (clobberRound flows) (3 * flows.length + 1) (flows.map fun _ => {})

def clobberEquations : Equations Nat RegisterSet :=
  equations flows fun n f clobbers =>
    f.blocks.foldl (fun s b => s.union (b.writesThrough clobbers)) (clobbers n)

theorem number_noClobbers (n : Nat) : number (flows.map fun _ => {}) n = {} := by
  rw [number, List.getD_eq_getElem?_getD, List.getElem?_map]
  cases flows[n]? <;> rfl

theorem rounds_clobbers : (clobberEquations flows).Rounds (fun s t => ∀ r ∈ s, r ∈ t)
    (·.toList.length) 3 (clobberRound flows) (fun l n => (number l n).clobbers)
    (·.length = flows.length) (flows.map fun _ => {}) := by
  refine rounds_equations Interface.clobbers rfl (fun n f _ values more hmore r hr => ?_)
    (fun _ hl => hl) (fun _ _ => List.length_mapIdx)
    (fun l _ n f hf => by rw [number_clobberRound hf]) (fun l _ n f hf heq => ?_) (by simp)
    fun n => by rw [number_noClobbers]
  · rw [mem_foldl_writesThrough] at hr ⊢
    refine hr.imp (hmore n r) fun ⟨b, hb, hr⟩ => ⟨b, hb, ?_⟩
    rw [mem_writesThrough] at hr ⊢
    exact hr.imp_right fun ⟨callee, hcallee, hr⟩ => ⟨callee, hcallee, hmore callee r hr⟩
  · rw [number_clobberRound hf] at heq ⊢
    simp only at heq
    rw [← heq]

theorem comesToRest_clobbered :
    ComesToRest (clobberRound flows) (flows.map fun _ => {}) (clobbered flows) :=
  (rounds_clobbers flows).comesToRest (by simp [clobberEquations, equations])

theorem settles_clobbers : (clobberEquations flows).Settles (fun _ => ∅) fun n =>
    (number (clobbered flows) n).clobbers := by
  have hsettles := (rounds_clobbers flows).settles (comesToRest_clobbered flows)
  simpa only [number_noClobbers] using hsettles

variable {flows}

/-! ## All rounds -/

theorem number_withoutInputs (interfaces : List Interface) (n : Nat) :
    number (interfaces.map fun i => { i with inputs := ∅ }) n =
      { number interfaces n with inputs := ∅ } := by
  rw [number, number, List.getD_eq_getElem?_getD, List.getD_eq_getElem?_getD, List.getElem?_map]
  cases interfaces[n]? <;> rfl

/-- Interfaces for some routines that agree with others in one field. -/
structure Agree {α : Type} (field : Interface → α) (flows : List RoutineFlow)
    (given interfaces : List Interface) : Prop where
  length : interfaces.length = flows.length
  same : ∀ n, field (number interfaces n) = field (number given n)

namespace Agree

variable {α : Type} {field : Interface → α} {given : List Interface}

theorem mapIdx (h : Agree field flows given interfaces) {change : Nat → RoutineFlow → Interface}
    (hchange : ∀ n f, field (change n f) = field (number interfaces n)) :
    Agree field flows given (flows.mapIdx change) := by
  refine ⟨List.length_mapIdx, fun n => ?_⟩
  rw [← h.same n]
  rcases hn : flows[n]? with _ | f
  · rw [List.getElem?_eq_none_iff] at hn
    rw [number_of_length_le (by rw [List.length_mapIdx]; exact hn),
      number_of_length_le (by rw [h.length]; exact hn)]
  · rw [number_mapIdx hn]
    exact hchange n f

theorem solveInputs (hfield : ∀ (i : Interface) inputs, field { i with inputs } = field i)
    (h : Agree field flows given interfaces) :
    Agree field flows given (solveInputs flows interfaces) := by
  unfold Interface.solveInputs
  refine iterate_invariant (p := Agree field flows given) (fun interfaces h => ?_) _ ?_
  · unfold inputRound
    exact h.mapIdx fun _ _ => hfield _ _
  refine ⟨by rw [List.length_map, h.length], fun n => ?_⟩
  rw [number_withoutInputs, hfield]
  exact h.same n

end Agree

variable (flows)

theorem length_clobbered : (clobbered flows).length = flows.length :=
  iterate_invariant (p := fun l : List Interface => l.length = flows.length)
    (fun _ _ => by simp [clobberRound]) _ (by simp)

theorem agree_clobbers_solve : Agree Interface.clobbers flows (clobbered flows) (solve flows) := by
  refine iterate_invariant (p := Agree Interface.clobbers flows (clobbered flows))
    (fun interfaces h => ?_) _ ?_
  · exact Agree.solveInputs (fun _ _ => rfl) (h.mapIdx fun _ _ => rfl)
  · exact Agree.solveInputs (fun _ _ => rfl) ⟨length_clobbered flows, fun _ => rfl⟩

theorem clobberRound_solve : clobberRound flows (solve flows) = solve flows := by
  have hagree := agree_clobbers_solve flows
  refine ext_number (by simp [clobberRound, hagree.length]) fun n hn => ?_
  have hn : n < flows.length := by simpa [clobberRound] using hn
  have hfixed := congrArg (fun l => (number l n).clobbers) (comesToRest_clobbered flows).fixed
  simp only [number_clobberRound (List.getElem?_eq_getElem hn), ← hagree.same] at hfixed
  rw [number_clobberRound (List.getElem?_eq_getElem hn), hfixed]

variable {flows}

theorem clobbers_solve (h : flows[n]? = some f) (hb : b ∈ f.blocks)
    (hr : r ∈ b.writesThrough fun callee => (number (solve flows) callee).clobbers) :
    r ∈ (number (solve flows) n).clobbers := by
  rw [← clobberRound_solve]
  exact (mem_clobberRound h).2 (.inr ⟨b, hb, hr⟩)

end Interface

/-! ## The routines of a graph -/

namespace RegisterBlock

theorem mem_ofRoutine {g : Graph} {r : Routine} {c : RegisterBlock} :
    c ∈ ofRoutine g rs r ↔ ∃ b, Routines.Reaches g r b ∧ c = ofBlock g rs b := by
  rw [ofRoutine, List.mem_map]
  simp only [← BlockSet.mem_iff, BlockSet.mem_ofList, Routines.Reaches,
    mem_reversePostorder (fun _ => Graph.lt_size_of_successorsIn_ne_nil), @eq_comm _ c]

end RegisterBlock

namespace Routines

variable {g : Graph} {roots : List BlockId} {r : Routine}

section

variable (g : Graph) (roots : List BlockId)

theorem numberAt?_ofGraph (entry : BlockId) :
    (ofGraph g roots).1.numberAt? entry = (partition g roots).1.numberAt? entry := by
  have hmap : ∀ rs : Routines, rs.numberAt? entry =
      (rs.all.map Routine.entry).findIdx? (fun e => decide (e = entry)) := fun rs => by
    rw [numberAt?, List.findIdx?_map]
    rfl
  rw [hmap, hmap, map_all_ofGraph _ fun _ _ => rfl]

theorem owner?_ofGraph (b : BlockId) :
    (ofGraph g roots).1.owner? b = (partition g roots).1.owner? b := by
  have hmap : ∀ rs : Routines, rs.owner? b =
      (rs.all.map Routine.blocks).findIdx? (fun blocks => blocks.contains b) := fun rs => by
    rw [owner?, List.findIdx?_map]
    rfl
  rw [hmap, hmap, map_all_ofGraph _ fun _ _ => rfl]

theorem ofBlock_ofGraph (b : BlockId) :
    ofBlock g (ofGraph g roots).1 b = ofBlock g
      (partition g roots).1 b := by
  unfold ofBlock takesOver?
  simp only [owner?_ofGraph, numberAt?_ofGraph]

def flow (g : Graph) (rs : Routines) (r : Routine) : RoutineFlow :=
  { entry := r.entry, isRoot := r.isRoot, blocks := ofRoutine g rs r }

def flows (g : Graph) (roots : List BlockId) : List RoutineFlow :=
  (partition g roots).1.all.map (flow g (partition g roots).1)

theorem flows_eq_map :
    flows g roots = (ofGraph g roots).1.all.map (flow g (ofGraph g roots).1) := by
  have hflow : flow g (ofGraph g roots).1 = flow g (partition g roots).1 := by
    funext r
    rw [flow, flow, ofRoutine, ofRoutine,
      funext (ofBlock_ofGraph g roots)]
  rw [hflow, map_all_ofGraph _ fun _ _ => rfl, flows]

end

theorem getElem?_flows {n : Nat} (h : (ofGraph g roots).1.all[n]? = some r) :
    (flows g roots)[n]? = some (flow g (ofGraph g roots).1 r) := by
  rw [flows_eq_map, List.getElem?_map, h, Option.map_some]

theorem map_interface_ofGraph (g : Graph) (roots : List BlockId) :
    (ofGraph g roots).1.all.map Routine.interface = Interface.solve (flows g roots) := by
  have hall : (ofGraph g roots).1.all.map Routine.interface =
      (((partition g roots).1.all.zip (Interface.solve (flows g roots))).map
        fun a => { a.1 with interface := a.2 }).map Routine.interface := rfl
  rw [hall, List.map_map]
  exact List.map_snd_zip (by rw [Interface.length_solve, flows, List.length_map])

theorem interface_eq_number {n : Nat} (h : (ofGraph g roots).1.all[n]? = some r) :
    r.interface = Interface.number (Interface.solve (flows g roots)) n := by
  rw [← map_interface_ofGraph, Interface.number, List.getD_eq_getElem?_getD, List.getElem?_map, h,
    Option.map_some, Option.getD_some]

/-- A family of register sets in which every routine has what its blocks write and what the routines
have that it calls or hands control to. -/
structure Clobber (g : Graph) (rs : Routines) (clobbers : Routine → RegisterSet) : Prop where
  writes : ∀ r ∈ rs.all, ∀ b, Reaches g r b → ∀ i ∈ (g.block b).code,
    ∀ q, Location.register q ∈ i.effects.writes → q ∈ clobbers r
  calls : ∀ r ∈ rs.all, ∀ b, Reaches g r b → ∀ k < (g.block b).code.length, ∀ callee,
    ((g.block b).callAt? k).bind rs.atEntry? = some callee → ∀ q ∈ clobbers callee, q ∈ clobbers r
  handsOver : ∀ r ∈ rs.all, ∀ b, Reaches g r b → ∀ t ∈ g.successors b, rs.handsOver b t = true →
    ∀ callee, rs.atEntry? t = some callee → ∀ q ∈ clobbers callee, q ∈ clobbers r

theorem atEntry?_eq_bind (rs : Routines) (entry : BlockId) :
    rs.atEntry? entry = (rs.numberAt? entry).bind fun n => rs.all[n]? :=
  List.find?_eq_bind_findIdx?_getElem?

theorem exists_number {entry : BlockId} (hr : rs.atEntry? entry = some r) :
    ∃ n, rs.numberAt? entry = some n ∧ rs.all[n]? = some r :=
  Option.bind_eq_some_iff.1 (atEntry?_eq_bind rs entry ▸ hr)

section

variable {rs : Routines} {r : Routine} {b : BlockId} {q : Register} {n : Nat}
  {clobbers : Routine → RegisterSet}

theorem takesOver?_eq_some_iff {s t : BlockId} :
    rs.takesOver? s t = some n ↔ rs.handsOver s t = true ∧ rs.numberAt? t = some n := by
  rw [handsOver, takesOver?]
  rcases rs.owner? s with _ | m
  · simp
  rcases rs.numberAt? t with _ | n'
  · simp
  · by_cases heq : m = n' <;> simp [heq]

theorem routine_mem_onward : .routine n ∈ (ofBlock g rs b).onward ↔
    ∃ t ∈ g.successors b, rs.takesOver? b t = some n := by
  rw [ofBlock, List.mem_map]
  refine exists_congr fun t => and_congr_right fun _ => ?_
  cases rs.takesOver? b t <;> simp

theorem exists_ownWrites_iff : (∃ step ∈ (ofBlock g rs b).steps, q ∈ step.ownWrites) ↔
    ∃ i ∈ (g.block b).code, Location.register q ∈ i.effects.writes := by
  have hregister : ∀ i : Instruction, q ∈ i.effects.writes.registers ↔
      Location.register q ∈ i.effects.writes := fun i => by cases q <;> rfl
  constructor
  · rintro ⟨step, hstep, hq⟩
    obtain ⟨k, hk, rfl⟩ := List.mem_mapIdx.1 hstep
    refine ⟨_, List.getElem_mem hk, (hregister _).1 ?_⟩
    split at hq <;> exact hq
  · rintro ⟨i, hi, hq⟩
    obtain ⟨k, hk, rfl⟩ := List.mem_iff_getElem.1 hi
    refine ⟨_, List.mem_mapIdx.2 ⟨k, hk, rfl⟩, ?_⟩
    split <;> exact (hregister _).2 hq

theorem exists_call_iff : (∃ writes, .call n writes ∈ (ofBlock g rs b).steps) ↔
    ∃ k < (g.block b).code.length, ((g.block b).callAt? k).bind rs.numberAt? = some n := by
  constructor
  · rintro ⟨writes, hstep⟩
    obtain ⟨k, hk, heq⟩ := List.mem_mapIdx.1 hstep
    refine ⟨k, hk, ?_⟩
    split at heq
    · next hcallee =>
      rw [hcallee, (RegisterStep.call.inj heq).1]
    · cases heq
  · rintro ⟨k, hk, hcallee⟩
    refine ⟨(g.block b).code[k].effects.writes.registers, List.mem_mapIdx.2 ⟨k, hk, ?_⟩⟩
    rw [hcallee]

theorem clobber_iff {numbered : Nat → RegisterSet}
    (hnumbered : ∀ n r, rs.all[n]? = some r → numbered n = clobbers r) :
    Clobber g rs clobbers ↔ ∀ r ∈ rs.all, ∀ b, Reaches g r b →
      ∀ q ∈ (ofBlock g rs b).writesThrough numbered, q ∈ clobbers r := by
  have hcallee : ∀ {entry n}, rs.numberAt? entry = some n →
      ∃ callee, rs.atEntry? entry = some callee ∧ numbered n = clobbers callee := by
    intro entry n hnumber
    obtain ⟨hn, -, -⟩ := List.findIdx?_eq_some_iff_getElem.1 hnumber
    refine ⟨_, ?_, hnumbered n _ (List.getElem?_eq_getElem hn)⟩
    rw [atEntry?_eq_bind, hnumber, Option.bind_some, List.getElem?_eq_getElem hn]
  constructor
  · intro h r hr b hb q hq
    rcases mem_writesThrough.1 hq with hown | ⟨n, hcall | honward, hq⟩
    · obtain ⟨i, hi, hq⟩ := exists_ownWrites_iff.1 hown
      exact h.writes r hr b hb i hi q hq
    · obtain ⟨k, hk, hbind⟩ := exists_call_iff.1 hcall
      obtain ⟨entry, hentry, hnumber⟩ := Option.bind_eq_some_iff.1 hbind
      obtain ⟨callee, hat, hset⟩ := hcallee hnumber
      exact h.calls r hr b hb k hk callee (by rw [hentry, Option.bind_some, hat]) q (hset ▸ hq)
    · obtain ⟨t, ht, htakes⟩ := routine_mem_onward.1 honward
      obtain ⟨hover, hnumber⟩ := takesOver?_eq_some_iff.1 htakes
      obtain ⟨callee, hat, hset⟩ := hcallee hnumber
      exact h.handsOver r hr b hb t ht hover callee hat q (hset ▸ hq)
  · intro h
    refine ⟨fun r hr b hb i hi q hq => h r hr b hb q ?_, fun r hr b hb k hk callee hbind q hq =>
      h r hr b hb q ?_, fun r hr b hb t ht hover callee hat q hq => h r hr b hb q ?_⟩
    · exact mem_writesThrough.2 (.inl (exists_ownWrites_iff.2 ⟨i, hi, hq⟩))
    · obtain ⟨entry, hentry, hat⟩ := Option.bind_eq_some_iff.1 hbind
      obtain ⟨n, hnumber, hn⟩ := exists_number hat
      refine mem_writesThrough.2 (.inr ⟨n, .inl (exists_call_iff.2 ⟨k, hk, ?_⟩), ?_⟩)
      · rw [hentry, Option.bind_some, hnumber]
      · rwa [hnumbered n _ hn]
    · obtain ⟨n, hnumber, hn⟩ := exists_number hat
      refine mem_writesThrough.2
        (.inr ⟨n, .inr (routine_mem_onward.2 ⟨t, ht, ?_⟩), ?_⟩)
      · exact takesOver?_eq_some_iff.2 ⟨hover, hnumber⟩
      · rwa [hnumbered n _ hn]

theorem Clobber.exits (h : Clobber g rs clobbers) (hsep : Separate rs.all) (hr : r ∈ rs.all)
    (hb : Reaches g r b) {t : BlockId} (ht : t ∈ g.successors b) {callee : Routine}
    (hcallee : rs.atEntry? t = some callee) (hq : q ∈ clobbers callee) : q ∈ clobbers r := by
  obtain ⟨n, hnumber, hn⟩ := exists_number hcallee
  obtain ⟨m, hm⟩ := List.mem_iff_getElem?.1 hr
  by_cases hne : m = n
  · rw [hne, hn] at hm
    exact Option.some.inj hm ▸ hq
  · have howner := (owner?_eq_some_iff hsep).2 ⟨r, hm, WayTo.mem_members hb (hsep.entry_mem r hr)⟩
    exact h.handsOver r hr b hb t ht (handsOver_of_owner? howner hnumber hne) callee hcallee q hq

end

theorem clobber_ofGraph (g : Graph) (roots : List BlockId) :
    Clobber g (ofGraph g roots).1 Routine.clobbers := by
  have hnumbered : ∀ n r, (ofGraph g roots).1.all[n]? = some r →
      (Interface.number (Interface.solve (flows g roots)) n).clobbers = r.clobbers :=
      fun n r hn => by
    rw [Routine.clobbers, interface_eq_number hn]
  refine (clobber_iff hnumbered).2 fun r hr b hb q hq => ?_
  obtain ⟨n, hn⟩ := List.mem_iff_getElem?.1 hr
  rw [← hnumbered n r hn]
  exact Interface.clobbers_solve (getElem?_flows hn) (mem_ofRoutine.2 ⟨b, hb, rfl⟩) hq

end Routines

end Lift6502
