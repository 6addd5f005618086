import Lift6502.Proofs.Generate.Mirror
import Mathlib.Data.List.Forall2

/-!
# Where paths meet

The state after two paths meet describes the processor, whichever path it came by.
-/

namespace Lift6502

open Expression Gen Generator Progress

variable {known : Known} {base bytes : List UInt8} {stack : List StackEntry}

theorem stackDescribes_iff {entries : List StackEntry} : StackDescribes known base entries bytes ↔
      ∃ top, bytes = top ++ base ∧ List.Forall₂ (StackEntry.Holds known) entries top := by
  induction entries generalizing bytes with
  | nil =>
    constructor
    · rintro rfl
      exact ⟨[], rfl, .nil⟩
    · rintro ⟨top, rfl, htop⟩
      cases htop
      rfl
  | cons entry rest ih =>
    constructor
    · intro h
      obtain ⟨byte, later, rfl, hentry, hrest⟩ := h.of_cons
      obtain ⟨top, rfl, htop⟩ := ih.1 hrest
      exact ⟨byte :: top, rfl, .cons hentry htop⟩
    · rintro ⟨top, rfl, htop⟩
      cases htop with
      | cons hentry hrest => exact ⟨hentry, ih.2 ⟨_, rfl, hrest⟩⟩

theorem StackEntry.Holds.merge {first entry : StackEntry} {others : List StackEntry}
    {pushed : UInt8} (hentry : entry = first ∨ entry ∈ others) (h : entry.Holds known pushed)
    (origin : String) : (mergeEntries (.unresolved origin) first others).Holds known pushed := by
  unfold mergeEntries
  split
  · next hall =>
    have hfirst : entry = first := hentry.elim id fun hmem => by
      simpa using List.all_eq_true.1 hall entry hmem
    rw [← hfirst]
    exact h
  · cases first with
    | byte b => exact Binding.holds_unresolved origin
    | status flags =>
      intro f
      rw [PerFlag.get_ofFn]
      exact Binding.holds_unresolved origin

theorem StackDescribes.join {first s : SymbolicState} {others : List SymbolicState} {block : String}
    (h : joinStacks first others block = .ok stack) (hs : s ∈ first :: others)
    (hd : StackDescribes known base s.stack bytes) : StackDescribes known base stack bytes := by
  unfold joinStacks at h
  split at h
  · cases h
  · next hdepths =>
    simp only [Except.ok.injEq] at h
    subst h
    have hdepth : s.stack.length = first.stack.length := by
      rcases List.mem_cons.1 hs with rfl | hs
      · rfl
      · simpa [SymbolicState.depth] using List.find?_eq_none.1 hdepths s hs
    obtain ⟨top, rfl, htop⟩ := stackDescribes_iff.1 hd
    refine stackDescribes_iff.2 ⟨top, rfl, List.forall₂_iff_get.2 ⟨?_, fun i hi htop' => ?_⟩⟩
    · rw [List.length_mapIdx, ← hdepth, htop.length_eq]
    · rw [List.length_mapIdx] at hi
      have hi' : i < s.stack.length := by rw [hdepth]; exact hi
      simp only [List.get_eq_getElem, List.getElem_mapIdx]
      have hentry := (List.forall₂_iff_get.1 htop).2 i hi' htop'
      refine StackEntry.Holds.merge ?_ hentry _
      rcases List.mem_cons.1 hs with rfl | hs
      · exact .inl rfl
      · exact .inr (List.mem_filterMap.2 ⟨s, hs, List.getElem?_eq_getElem hi'⟩)

/-! ## States that meet -/

def mergeLocation (left right : SymbolicState) (block : String)
    (merging : SymbolicState × List Statement × List Statement) (l : Location) :
    Gen (SymbolicState × List Statement × List Statement) :=
  match left.expression? l, right.expression? l with
  | some leftValue, some rightValue => do
    let v ← newMerge l
    return (merging.1.set l (.ofVariable v), merging.2.1 ++ [Statement.assign v leftValue],
      merging.2.2 ++ [Statement.assign v rightValue])
  | _, _ => return (merging.1.set l (.unresolved ("set on only some paths into " ++ block)),
    merging.2)

theorem joinStates_eq (left right : SymbolicState) (block : String) :
    joinStates left right block = do
      let stack ← MonadExcept.ofExcept (joinStacks left [right] block)
      let merging ← (left.disagreements right).foldlM (mergeLocation left right block)
        (left, [], [])
      return ({ merging.1 with stack }, merging.2) := by
  unfold joinStates mergeLocation
  congr 1

variable {H : Host} {p p' : Progress} {e : Expression}

/-- The assignments at the end of a path with the state `s` give the locations of `merged`
their values. -/
def Settles (H : Host) (p p' : Progress) (s merged : SymbolicState) (ls : List Location)
    (assignments : List Statement) : Prop :=
  ∀ (value : Location → UInt32) (σ : Scene),
    (∀ l e, s.expression? l = some e → e.HasValue (σ.env.known p.issue) (value l)) →
    ∃ σ', H.run assignments σ = .ok (.normal, σ') ∧ σ'.memory = σ.memory ∧
      σ.env.Keeps p.issue σ'.env ∧
      ∀ l ∈ ls, (merged.get l).Holds (σ'.env.known p'.issue) l (value l)

section

variable {s merged : SymbolicState} {l : Location} {ls : List Location}
  {assignments : List Statement}

theorem Settles.assign (h : Settles H { p with merges := p.merges + 1 } p' s merged ls assignments)
    (hp : p.merges + 1 ≤ p'.merges) (he : s.expression? l = some e)
    (hl : l ∉ ls → merged.get l = .ofVariable (.merge l (p.merges + 1))) :
    Settles H p p' s merged (l :: ls) (.assign (.merge l (p.merges + 1)) e :: assignments) := by
  intro value σ hvalue
  let σ1 := σ.assign (.merge l (p.merges + 1)) (value l)
  have hkeeps : σ.env.Keeps p.issue σ1.env := Environment.keeps_set (not_isIssued_newMerge p l) _
  have hle : p.issue.Le (issue { p with merges := p.merges + 1 }) :=
    ⟨Nat.le_refl _, Nat.le_succ _, id⟩
  obtain ⟨σ', hrun, hmemory, hkeeps', hholds⟩ := h value σ1 fun k e he =>
    (hvalue k e he).mono (hkeeps.known_le hle)
  have hcons : Statement.assign (.merge l (p.merges + 1)) e :: assignments =
      [.assign (.merge l (p.merges + 1)) e] ++ assignments := rfl
  refine ⟨σ', ?_, hmemory, hkeeps.trans hkeeps' hle, fun k hk => ?_⟩
  · rw [hcons, Host.run_append_of_normal (Host.run_assign ((hvalue l e he).eval_known H.function))]
    exact hrun
  · by_cases hks : k ∈ ls
    · exact hholds k hks
    · obtain rfl : k = l := (List.mem_cons.1 hk).resolve_right hks
      rw [hl hks]
      have hissued : (Variable.merge k (p.merges + 1)).IsIssued
          (issue { p with merges := p.merges + 1 }) := Nat.le_refl (p.merges + 1)
      refine Binding.holds_ofVariable (Environment.known_eq_some hp ?_)
      rw [hkeeps' _ hissued]
      show (σ.env.set _ _).get? _ = _
      rw [Environment.get?_set, if_pos rfl]

theorem Settles.lose (h : Settles H p p' s merged ls assignments) {origin : String}
    (hl : l ∉ ls → merged.get l = .unresolved origin) :
    Settles H p p' s merged (l :: ls) assignments := by
  intro value σ hvalue
  obtain ⟨σ', hrun, hmemory, hkeeps, hholds⟩ := h value σ hvalue
  refine ⟨σ', hrun, hmemory, hkeeps, fun k hk => ?_⟩
  by_cases hks : k ∈ ls
  · exact hholds k hks
  · obtain rfl : k = l := (List.mem_cons.1 hk).resolve_right hks
    rw [hl hks]
    exact Binding.holds_unresolved origin

end

section

variable {left right s merged : SymbolicState} {block : String} {onLeft onRight : List Statement}
  {ls : List Location}

theorem yields_mergeLocations {merging merging' : SymbolicState × List Statement × List Statement}
    (hy : Yields (ls.foldlM (mergeLocation left right block) merging) p merging' p') :
    (∃ last, p.merges ≤ last ∧ p' = { p with merges := last }) ∧
      merging'.1.stack = merging.1.stack ∧ (∀ l, l ∉ ls → merging'.1.get l = merging.1.get l) ∧
      ∃ onLeft onRight, merging'.2.1 = merging.2.1 ++ onLeft ∧
        merging'.2.2 = merging.2.2 ++ onRight ∧
        Settles H p p' left merging'.1 ls onLeft ∧ Settles H p p' right merging'.1 ls onRight := by
  induction ls generalizing p merging with
  | nil =>
    obtain ⟨rfl, rfl⟩ := hy.of_pure
    refine ⟨⟨p'.merges, Nat.le_refl _, rfl⟩, rfl, fun _ _ => rfl, [], [], ?_, ?_, ?_, ?_⟩
    · rw [List.append_nil]
    · rw [List.append_nil]
    · exact fun _ σ _ => ⟨σ, rfl, rfl, .refl, fun _ hl => absurd hl List.not_mem_nil⟩
    · exact fun _ σ _ => ⟨σ, rfl, rfl, .refl, fun _ hl => absurd hl List.not_mem_nil⟩
  | cons l rest ih =>
    rw [List.foldlM_cons] at hy
    obtain ⟨merging1, p1, hfirst, hrest⟩ := hy.of_bind
    have hothers : ∀ {b : Binding} k, k ∉ l :: rest →
        (merging.1.set l b).get k = merging.1.get k := by
      intro b k hk
      have hne : k ≠ l := fun h => hk (by rw [h]; exact List.mem_cons_self)
      rw [SymbolicState.get_set, if_neg hne]
    unfold mergeLocation at hfirst
    split at hfirst
    · next leftValue rightValue hleft hright =>
      obtain ⟨v, p2, hnew, hpure⟩ := hfirst.of_bind
      obtain ⟨rfl, rfl⟩ := yields_newMerge.1 hnew
      obtain ⟨rfl, rfl⟩ := hpure.of_pure
      obtain ⟨⟨last, hle, rfl⟩, hstack, hget, onLeft, onRight, hl, hr, hsl, hsr⟩ := ih hrest
      have hle : p.merges + 1 ≤ last := hle
      have hnew : l ∉ rest → merging'.1.get l = .ofVariable (.merge l (p.merges + 1)) :=
        fun hnot => by
        rw [hget l hnot, SymbolicState.get_set, if_pos rfl]
      refine ⟨⟨last, by omega, rfl⟩, hstack, fun k hk => ?_, _, _, ?_, ?_,
        hsl.assign hle hleft hnew, hsr.assign hle hright hnew⟩
      · rw [hget k fun h => hk (List.mem_cons_of_mem l h)]
        exact hothers k hk
      · rw [hl, List.append_assoc]
        rfl
      · rw [hr, List.append_assoc]
        rfl
    · obtain ⟨rfl, rfl⟩ := hfirst.of_pure
      obtain ⟨hmerges, hstack, hget, onLeft, onRight, hl, hr, hsl, hsr⟩ := ih hrest
      have hlost : l ∉ rest →
          merging'.1.get l = .unresolved ("set on only some paths into " ++ block) := fun hnot => by
        rw [hget l hnot, SymbolicState.get_set, if_pos rfl]
      refine ⟨hmerges, hstack, fun k hk => ?_, onLeft, onRight, hl, hr, hsl.lose hlost,
        hsr.lose hlost⟩
      rw [hget k fun h => hk (List.mem_cons_of_mem l h)]
      exact hothers k hk

/-- The assignments at the end of a path lead from its state to the one where it meets others. -/
def Joins (H : Host) (p p' : Progress) (s joined : SymbolicState) (assignments : List Statement) :
    Prop :=
  ∀ core base σ, Matches issue core base s p σ → ∃ σ', H.run assignments σ =
    .ok (.normal, σ') ∧ Matches issue core base joined p' σ' ∧ σ.env.Keeps p.issue σ'.env

theorem Settles.joins {assignments : List Statement} (h : Settles H p p' s merged ls assignments)
    (hp : p.issue.Le p'.issue) (hsame : ∀ l, l ∉ ls → merged.get l = s.get l)
    (hstack : ∀ {known base bytes}, StackDescribes known base s.stack bytes →
      StackDescribes known base stack bytes) :
    Joins H p p' s { merged with stack } assignments := by
  intro core base σ hm
  obtain ⟨σ', hrun, hmemory, hkeeps, hholds⟩ :=
    h core.cpu.value σ fun l e he => hm.describes.hasValue he
  have hknown := hkeeps.known_le hp
  refine ⟨σ', hrun, ⟨⟨fun l => ?_, hstack (hm.describes.stack.mono hknown)⟩,
    hmemory.trans hm.memory⟩, hkeeps⟩
  by_cases hl : l ∈ ls
  · exact hholds l hl
  · show (merged.get l).Holds _ l _
    rw [hsame l hl]
    exact (hm.describes.location l).mono hknown

theorem not_mem_disagreements {l : Location} (h : l ∉ left.disagreements right) :
    left.get l = right.get l := by
  by_contra hne
  exact h (List.mem_filter.2 ⟨Location.mem_all l, by simpa using hne⟩)

theorem yields_joinStates (hy : Yields (joinStates left right block) p (s, onLeft, onRight) p') :
    (∃ last, p.merges ≤ last ∧ p' = { p with merges := last }) ∧ Joins H p p' left s onLeft ∧
      Joins H p p' right s onRight := by
  rw [joinStates_eq] at hy
  obtain ⟨stack, p1, hjoin, hy1⟩ := hy.of_bind
  obtain ⟨hstack, rfl⟩ := Yields.ofExcept_iff.1 hjoin
  obtain ⟨⟨merged, left', right'⟩, hmerge, hresult⟩ := Yields.bind_pure_iff.1 hy1
  simp only [Prod.mk.injEq] at hresult
  obtain ⟨rfl, rfl, rfl⟩ := hresult
  obtain ⟨⟨last, hle, rfl⟩, -, hget, onLeft', onRight', hl, hr, hsl, hsr⟩ :=
    yields_mergeLocations (H := H) hmerge
  have hp : p1.issue.Le (issue { p1 with merges := last }) := ⟨Nat.le_refl _, hle, id⟩
  rw [List.nil_append] at hl hr
  rw [← hl] at hsl
  rw [← hr] at hsr
  refine ⟨⟨last, hle, rfl⟩, hsl.joins hp hget fun hd => hd.join hstack List.mem_cons_self,
    hsr.joins hp (fun l hnot => ?_) fun hd => hd.join hstack (by simp)⟩
  rw [hget l hnot, not_mem_disagreements hnot]

theorem yields_join {thenFlow elseFlow flow : Option SymbolicState}
    (hy : Yields (Generator.join thenFlow elseFlow block) p (flow, onLeft, onRight) p') :
    (∃ last, p.merges ≤ last ∧ p' = { p with merges := last }) ∧
      (∀ s, thenFlow = some s → ∃ joined, flow = some joined ∧ Joins H p p' s joined onLeft) ∧
      ∀ s, elseFlow = some s → ∃ joined, flow = some joined ∧ Joins H p p' s joined onRight := by
  have hrefl : ∀ s, Joins H p p s s [] := fun s _ _ σ hm => ⟨σ, rfl, hm, .refl⟩
  have hpure : ∀ {joined : Option SymbolicState},
      Yields (pure (joined, [], []) : Gen _) p (flow, onLeft, onRight) p' →
        flow = joined ∧ onLeft = [] ∧ onRight = [] ∧ p' = p := by
    intro joined hy
    obtain ⟨hresult, hp⟩ := hy.of_pure
    simp only [Prod.mk.injEq] at hresult
    exact ⟨hresult.1, hresult.2.1, hresult.2.2, hp⟩
  cases thenFlow with
  | none =>
    cases elseFlow with
    | none =>
      obtain ⟨-, -, -, rfl⟩ := hpure hy
      exact ⟨⟨p'.merges, Nat.le_refl _, rfl⟩, (fun s hs => nomatch hs), (fun s hs => nomatch hs)⟩
    | some right =>
      obtain ⟨rfl, rfl, rfl, rfl⟩ := hpure hy
      refine ⟨⟨p'.merges, Nat.le_refl _, rfl⟩, (fun s hs => nomatch hs), fun s hs => ?_⟩
      exact ⟨s, hs, hrefl s⟩
  | some left =>
    cases elseFlow with
    | none =>
      obtain ⟨rfl, rfl, rfl, rfl⟩ := hpure hy
      refine ⟨⟨p'.merges, Nat.le_refl _, rfl⟩, fun s hs => ?_, (fun s hs => nomatch hs)⟩
      exact ⟨s, hs, hrefl s⟩
    | some right =>
      obtain ⟨⟨joined, onLeft', onRight'⟩, hjoin, hresult⟩ := Yields.bind_pure_iff.1 hy
      simp only [Prod.mk.injEq] at hresult
      obtain ⟨rfl, rfl, rfl⟩ := hresult
      obtain ⟨hmerges, hleft, hright⟩ := yields_joinStates (H := H) hjoin
      refine ⟨hmerges, fun s hs => ?_, fun s hs => ?_⟩
      · cases hs
        exact ⟨joined, rfl, hleft⟩
      · cases hs
        exact ⟨joined, rfl, hright⟩

end

namespace Stage

variable {S : Stage} {bases : Bases} {σ : Scene} {s : SymbolicState} {core : Core}
  {test : Expression}

theorem hasTruth_condition {b : BlockId} {taken : Bool} (next : BlockId)
    (hy : Yields (S.generator.condition (.branch b taken) s) p e p')
    (hm : Matches issue core S.base s p σ) : p' = p ∧ e.HasTruth (σ.env.known p.issue)
      ((Condition.branch b taken).holds S.machine next core) := by
  unfold Generator.condition at hy
  simp only at hy
  split at hy
  · exact absurd hy Yields.not_throw
  · next flag sense htest =>
    obtain ⟨value, p1, hflag, hpure⟩ := hy.of_bind
    obtain ⟨hread, rfl⟩ := Yields.ofExcept_iff.1 hflag
    obtain ⟨rfl, rfl⟩ := hpure.of_pure
    have hvalue : value.HasTruth (σ.env.known p'.issue) (core.cpu.status.get flag) :=
      (hm.describes.of_read hread).hasTruth
    have hholds : (Condition.branch b taken).holds S.machine next core =
        ((core.cpu.status.get flag == sense) == taken) := by
      have htest' : ((S.setting.graph.block b).terminator?.bind fun i =>
        i.opcode.branchCondition?) = some (flag, sense) := htest
      simp only [Condition.holds, machine, Setting.machine, htest']
    refine ⟨rfl, ?_⟩
    rw [hholds]
    -- Each negation turns the comparison with `false` into one with `true`.
    cases sense <;> cases taken <;> simp only [if_true, Bool.false_eq_true, if_false]
    · simpa using hvalue.mkNot.mkNot
    · simpa using hvalue.mkNot
    · simpa using hvalue.mkNot
    · simpa using hvalue

theorem run_cond {H : Host} {b : Bool} (thenOut elseOut : List Statement)
    (h : test.HasTruth σ.env.get? b) :
    H.run [.cond test thenOut elseOut] σ = H.run (if b then thenOut else elseOut) σ := by
  obtain ⟨w, hvalue, hw⟩ := h
  rw [Host.run_singleton, Statement.run]
  unfold Scene.value
  rw [hvalue.eval H.function σ.memory]
  show (if (w != 0) = true then H.run thenOut σ else H.run elseOut σ) = _
  rw [hw]
  cases b <;> rfl

theorem run_emitConditional {H : Host} {b : Bool} {thenOut elseOut : List Statement} {u : Unit}
    {i : Issue} (hy : Yields (emitConditional test thenOut elseOut) p u p')
    (h : test.HasTruth (σ.env.known i) b) :
    H.run (p.emitted p') σ = H.run (if b then thenOut else elseOut) σ := by
  unfold emitConditional at hy
  split at hy
  · obtain ⟨-, rfl⟩ := hy.of_pure
    rw [emitted_self]
    cases b <;> rfl
  · obtain rfl := yields_emit.1 hy
    rw [emitted_push rfl, run_cond _ _ (h.mkNot.mono (σ.env.known_le i))]
    cases b <;> rfl
  · obtain rfl := yields_emit.1 hy
    rw [emitted_push rfl, run_cond _ _ (h.mono (σ.env.known_le i))]

theorem Mirrors.join {p1 p2 p3 : Progress} {flow1 flow : Option SymbolicState} {t : TreeRun}
    {out assignments : List Statement} (h : S.Mirrors bases p1 σ flow1 p2 t (S.host.run out σ))
    (hp : p2.Later p3) (hp' : p3.Later p')
    (hjoin : ∀ s, flow1 = some s → ∃ joined, flow = some joined ∧
      Joins S.host p3 p' s joined assignments) (hle : p1.issue.Le p3.issue) :
    S.Mirrors bases p1 σ flow p' t (S.host.run (out ++ assignments) σ) := by
  rw [← andThen_ok t]
  refine h.bind (hp.trans hp') fun s1 core σ1 hs1 hmatches hkeeps => ?_
  obtain ⟨joined, hjoined, hjoins⟩ := hjoin s1 hs1
  obtain ⟨σ', hrun, hmatches', hkeeps'⟩ := hjoins core S.base σ1 (hmatches.of_issue hp.issue)
  exact ⟨joined, σ', hjoined, hrun, hmatches', hkeeps.trans hkeeps' hle⟩

end Stage

theorem Progress.emitted_of_empty {out : List Statement} (h : p.out = #[])
    (hout : out = p'.out.toList) : p.emitted p' = out := by
  refine emitted_eq ?_
  rw [h, hout]
  rfl

namespace Stage

variable {S : Stage} {labels : List (Option String)}

theorem Sound.conditional {thenBranch elseBranch : PathGen} {thenRun elseRun : Core → TreeRun}
    (hthen : S.Sound labels thenBranch thenRun) (helse : S.Sound labels elseBranch elseRun)
    (hthenSteady : ∀ s, Steady (thenBranch s)) (helseSteady : ∀ s, Steady (elseBranch s))
    (b : BlockId) (taken : Bool) (join : Option BlockId) (next : BlockId) :
    S.Sound labels (S.generator.conditional (.branch b taken) thenBranch elseBranch join)
      fun core =>
      if (Condition.branch b taken).holds S.machine next core then thenRun core else elseRun core := by
  intro bases s core p σ flow p' hy hok hfresh hlabels hm
  unfold Generator.conditional at hy
  obtain ⟨test, p1, htest, hy1⟩ := hy.of_bind
  obtain ⟨rfl, htruth⟩ := hasTruth_condition next htest hm
  obtain ⟨thenFlow, thenOut, q, hthenBranch, hthenText, hy2⟩ := yields_capture_bind.1 hy1
  obtain ⟨elseFlow, elseOut, q', helseBranch, helseText, hy3⟩ := yields_capture_bind.1 hy2
  obtain ⟨⟨joined, onThen, onElse⟩, p4, hjoin, hy4⟩ := hy3.of_bind
  obtain ⟨⟨last, hle, rfl⟩, hjoinThen, hjoinElse⟩ := yields_join (H := S.host) hjoin
  obtain ⟨_, hemit, rfl⟩ := Yields.bind_pure_iff.1 hy4
  have hp' := yields_emitConditional hemit
  -- The branches start where the conditional does; what they emit is taken out.
  let start : Progress := { p1 with out := #[] }
  let between : Progress := { q with out := #[] }
  let met : Progress := { q' with out := p1.out }
  have hstart : p1.Later start := p1.later_out #[]
  have hq : start.Later q := ((hthenSteady s).grows hthenBranch).toLater
  have hbetween : q.Later between := q.later_out #[]
  have hq' : between.Later q' := ((helseSteady s).grows helseBranch).toLater
  have hmet : q'.Later met := q'.later_out p1.out
  have hextends : met.Extends { met with merges := last } :=
    ⟨List.prefix_refl _, rfl, Nat.le_refl _, hle, id⟩
  have hjoined := hextends.grows.toLater
  have hend : Progress.Later { met with merges := last } p' := by
    rw [hp']
    exact later_out _ _
  have hchosen := run_emitConditional (H := S.host) hemit htruth
  have hemitted : S.host.run (p1.emitted p') σ = _ := hchosen
  rw [hemitted]
  beta_reduce
  cases (Condition.branch b taken).holds S.machine next core with
  | true =>
    have hlast := hbetween.trans (hq'.trans hmet)
    have hmirrors := hthen bases s core start σ thenFlow q hthenBranch (hok.mono hstart)
      (hfresh.mono (hlast.trans (hjoined.trans hend)).issue) hlabels (hm.of_issue hstart.issue)
    rw [emitted_of_empty rfl hthenText] at hmirrors
    exact ((hmirrors.join hlast hjoined hjoinThen (hq.trans hlast).issue).go_on hend).of_later hok
      hstart .refl
  | false =>
    have hfirst := hstart.trans (hq.trans hbetween)
    have hmirrors := helse bases s core between σ elseFlow q' helseBranch (hok.mono hfirst)
      ((hfresh.mono (hmet.trans (hjoined.trans hend)).issue).of_later hfirst)
      (hfirst.labels.trans hlabels)
      (hm.of_issue hfirst.issue)
    rw [emitted_of_empty rfl helseText] at hmirrors
    exact ((hmirrors.join hmet hjoined hjoinElse (hq'.trans hmet).issue).go_on hend).of_later hok
      hfirst .refl

end Stage

end Lift6502
