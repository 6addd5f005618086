import Lift6502.Proofs.Generate.Block

/-!
# Code for jumps

A jump to a header leaves the values of the loop's locations in their variables, and a break those
that the loop hands on in the variables of its result.
-/

namespace Lift6502

open Expression Gen Generator Progress Environment Carriers

variable {l : Location}

theorem Carriers.mem_carried {c : Carriers} {v : Variable} :
    v ∈ c.carried ↔ ∃ l, c.get l = some v := by
  unfold carried
  rw [List.mem_map]
  constructor
  · rintro ⟨⟨l, u⟩, hmem, rfl⟩
    exact ⟨l, mem_toList.1 hmem⟩
  · rintro ⟨l, hl⟩
    exact ⟨(l, v), mem_toList.2 hl, rfl⟩

def Cpu.carried (cpu : Cpu) : Variable → UInt32
  | .merge l _ => cpu.value l
  | .temp _ | .input _ | .dispatch => 0

section

variable {env env' : Environment} {i j : Issue} {base bytes : List UInt8}

theorem Expression.HasValue.earlier {e : Expression} {w : UInt32} (h : e.HasValue (env.known j) w)
    (hreads : ∀ v ∈ e.reads, v.IsIssued i) (hkeeps : env.Keeps i env') :
    e.HasValue (env'.known i) w := by
  refine h.congr fun v hv x hx => ?_
  refine known_eq_some (hreads v hv) ?_
  rw [hkeeps v (hreads v hv)]
  exact env.known_le j v x hx

theorem Binding.Holds.earlier {b : Binding} {w : UInt32}
    (h : b.Holds (env.known j) l w) (hreads : ∀ e, b = .expr e → ∀ v ∈ e.reads, v.IsIssued i)
    (hkeeps : env.Keeps i env') : b.Holds (env'.known i) l w := by
  intro e he
  cases b with
  | expr e' =>
    cases he
    exact (h _ rfl).earlier (hreads _ rfl) hkeeps
  | literal value =>
    -- A literal reads nothing.
    refine (h e he).earlier (fun v hv => ?_) hkeeps
    cases he
    by_cases hflag : l.isFlag = true <;> simp [hflag, reads] at hv
  | unresolved origin => cases he

theorem StackDescribes.earlier {entries : List StackEntry}
    (h : StackDescribes (env.known j) base entries bytes)
    (hreads : ∀ entry ∈ entries, entry.ReadsIssued i) (hkeeps : env.Keeps i env') :
    StackDescribes (env'.known i) base entries bytes := by
  induction entries generalizing bytes with
  | nil => exact h
  | cons entry rest ih =>
    obtain ⟨byte, later, rfl, hentry, hrest⟩ := h.of_cons
    refine ⟨?_, ih hrest fun e he => hreads e (List.mem_cons_of_mem entry he)⟩
    have hissued := hreads entry List.mem_cons_self
    cases entry with
    | byte b => exact Binding.Holds.earlier hentry hissued hkeeps
    | status flags => exact fun f => (hentry f).earlier (hissued f) hkeeps

end

namespace Stage

variable {S : Stage} {labels : List (Option String)} {bases : Bases} {p p' : Progress} {σ : Scene}
  {s : SymbolicState} {core : Core} {k : Nat} {u : Unit} {label : Option String} {target : BlockId}
  {phis : Carriers}

/-! ## Jumps to a header -/

theorem mem_headerAssignments {a : Variable × Expression} : a ∈ headerAssignments phis s ↔
      ∃ l, phis.get l = some a.1 ∧ s.expression? l = some a.2 ∧ a.2 ≠ .var a.1 := by
  unfold headerAssignments
  rw [List.mem_filterMap]
  constructor
  · rintro ⟨⟨l, phi⟩, hmem, hbind⟩
    obtain ⟨value, hvalue, hif⟩ := Option.bind_eq_some_iff.1 hbind
    split at hif
    · cases hif
    · next hne =>
      cases hif
      exact ⟨l, mem_toList.1 hmem, hvalue, hne⟩
  · rintro ⟨l, hphi, hvalue, hne⟩
    refine ⟨(l, a.1), mem_toList.2 hphi, ?_⟩
    simp only [hvalue, Option.bind_some, if_neg hne]

theorem mem_lostAt : l ∈ lostAt phis s ↔ (phis.get l).isSome = true ∧ s.expression? l = none := by
  unfold lostAt
  simp only [LocationSet.mem_ofList, List.mem_filterMap, Option.isNone_iff_eq_none]
  constructor
  · rintro ⟨⟨k, v⟩, hmem, hif⟩
    split at hif
    · next hnone =>
      cases hif
      exact ⟨by rw [mem_toList.1 hmem]; rfl, hnone⟩
    · cases hif
  · rintro ⟨hsome, hnone⟩
    obtain ⟨v, hv⟩ := Option.isSome_iff_exists.1 hsome
    exact ⟨(l, v), mem_toList.2 hv, by rw [if_pos hnone]⟩

/-- The variables of a loop hold the values of their locations after a jump to its header, and no
other variable in use has changed. -/
theorem run_jumpToHeader {f : Frame} {i : Issue} (hy : Yields (jumpToHeader k s) p u p')
    (hf : p.frames[k]? = some f) (hi : bases[k]? = some i) (hok : FramesOk bases p)
    (hm : Matches issue core S.base s p σ) :
    ∃ f' σ', p'.frames[k]? = some f' ∧ S.host.run (p.emitted p') σ = .ok (.normal, σ') ∧
      S.AtHeader i σ f' core σ' ∧
      ∀ v, v.IsIssued p.issue → v ∉ f.phis.carried → σ'.env.get? v = σ.env.get? v := by
  obtain ⟨hstack, hassign⟩ := (yields_jumpToHeader hf).1 hy
  have hphi := hok.phi k f i hf hi
  have hassignments : ∀ a ∈ headerAssignments f.phis s, (∀ id, a.1 ≠ .temp id) ∧
      a.2.HasValue (σ.env.known p.issue) (core.cpu.carried a.1) := by
    intro a ha
    obtain ⟨l, hl, hvalue, -⟩ := mem_headerAssignments.1 ha
    obtain ⟨⟨id, hid⟩, -, -⟩ := hphi l a.1 hl
    rw [hid]
    exact ⟨fun _ => nofun, hm.describes.hasValue hvalue⟩
  let noted : Frame := { f with widened := f.widened.union (lostAt f.phis s) }
  obtain ⟨hmore, σ', hrun, hmemory, hnew, hold, -⟩ := run_assignAtOnce issue (H := S.host)
    (σ := σ) (p := { p with frames := p.frames.set k noted }) hassignments hassign
  have hkeeps : σ.env.Keeps i σ'.env := by
    intro v hv
    refine hold v (hv.mono (hok.le i (List.mem_of_getElem? hi))) fun hmem => ?_
    obtain ⟨a, ha, rfl⟩ := List.mem_map.1 hmem
    obtain ⟨l, hl, -, -⟩ := mem_headerAssignments.1 ha
    exact (hphi l a.1 hl).2.1 hv
  refine ⟨noted, σ', ?_, hrun, ⟨hkeeps, hmemory.trans hm.memory, ?_, fun l v hv hl => ?_⟩,
    fun v hv hspared => hold v hv fun hmem => ?_⟩
  · rw [hmore.frames, List.getElem?_set_self (List.getElem?_eq_some_iff.1 hf).1]
  · have hdescribed := hm.describes.stack
    rw [hstack] at hdescribed
    exact hdescribed.earlier (hok.stack k f i hf hi) hkeeps
  · obtain ⟨⟨id, hid⟩, -, hissued⟩ := hphi l v hv
    by_cases hmem : v ∈ (headerAssignments f.phis s).map (·.1)
    · rw [hnew v hmem, hid]
      rfl
    · -- The location has a value, which is in the variable already.
      rw [hold v hissued hmem]
      have hl : l ∉ f.widened.union (lostAt f.phis s) := hl
      rw [LocationSet.mem_union, not_or, mem_lostAt] at hl
      rcases hvalue : s.expression? l with _ | e
      · exact absurd ⟨by rw [hv]; rfl, hvalue⟩ hl.2
      · by_cases he : e = .var v
        · have hhas := hm.describes.hasValue hvalue
          rw [he] at hhas
          cases hhas with
          | var h => exact σ.env.known_le p.issue v _ h
        · exact absurd (List.mem_map.2 ⟨(v, e), mem_headerAssignments.2 ⟨l, hv, hvalue, he⟩, rfl⟩)
            hmem
  · obtain ⟨a, ha, rfl⟩ := List.mem_map.1 hmem
    obtain ⟨l, hl, -, -⟩ := mem_headerAssignments.1 ha
    exact hspared (mem_carried.2 ⟨l, hl⟩)

theorem jumpPosition?_lt {frames : List Frame}
    (h : jumpPosition? label frames = some k) : k < frames.length := by
  unfold jumpPosition? at h
  cases label with
  | none =>
    simp only at h
    split at h
    · cases h
    · next hne =>
      cases h
      exact List.length_pos_iff.2 (by simpa using hne)
  | some name =>
    obtain ⟨hk, -⟩ := List.findIdx?_eq_some_iff_getElem.1 h
    exact hk

theorem exists_frame (h : jumpPosition? label p.frames = some k)
    (hok : FramesOk bases p) : ∃ f i, p.frames[k]? = some f ∧ bases[k]? = some i := by
  have hk := jumpPosition?_lt h
  have hk' : k < bases.length := by
    rw [hok.length]
    exact hk
  exact ⟨_, _, List.getElem?_eq_getElem hk, List.getElem?_eq_getElem hk'⟩

theorem sound_resumeLoop (label : Option String) :
    S.Sound labels (S.generator.resumeLoop label) fun core => .ok (.continueLoop label, core) := by
  intro bases s core p σ flow p' hy hok _ _ hm
  obtain ⟨k, p1, hposition, hy1⟩ := hy.of_bind
  obtain ⟨hk, rfl⟩ := yields_framePosition.1 hposition
  obtain ⟨_, p2, hjump, hy2⟩ := hy1.of_bind
  obtain ⟨rfl, rfl⟩ := yields_emit_pure.1 hy2
  obtain ⟨f, i, hf, hi⟩ := exists_frame hk hok
  obtain ⟨f', σ', hf', hrun, hat, -⟩ := run_jumpToHeader hjump hf hi hok hm
  refine ⟨k, f', i, σ', hk, hf', hi, ?_, hat⟩
  exact Eq.trans (Host.run_push ((steady_jumpToHeader k s).grows hjump).out hrun rfl) rfl

theorem run_assignFollow {f : Frame} (hy : Yields (assignFollow f s) p u p')
    (hfresh : ∀ l v, (f.follow.getD .empty).get l = some v → (∃ id, v = .merge l id) ∧
      ¬ v.IsIssued p.issue) (hm : Matches issue core S.base s p σ) :
    ∃ σ', S.host.run (p.emitted p') σ = .ok (.normal, σ') ∧ σ'.memory = σ.memory ∧
      σ.env.Keeps p.issue σ'.env ∧ ∀ l v, (f.follow.getD .empty).get l = some v →
        σ'.env.get? v = some (core.cpu.value l) := by
  have hfresh' : ∀ a ∈ (f.follow.getD .empty).toList,
      core.cpu.carried a.2 = core.cpu.value a.1 ∧ ¬ a.2.IsIssued p.issue := by
    intro a ha
    obtain ⟨⟨id, hid⟩, hnew⟩ := hfresh a.1 a.2 (mem_toList.1 ha)
    exact ⟨by rw [hid]; rfl, hnew⟩
  suffices hlist : ∀ carried : List (Location × Variable), (∀ a ∈ carried,
      core.cpu.carried a.2 = core.cpu.value a.1 ∧ ¬ a.2.IsIssued p.issue) →
      ∀ {p1 p' σ1}, p1.issue = p.issue → σ.env.Keeps p.issue σ1.env → σ1.memory = σ.memory →
      Yields (carried.forM fun a => do emit (.assign a.2 (← Gen.read s a.1 f.header))) p1 u p' →
      ∃ σ', S.host.run (p1.emitted p') σ1 = .ok (.normal, σ') ∧ σ'.memory = σ.memory ∧
        σ.env.Keeps p.issue σ'.env ∧ ∀ v, σ'.env.get? v =
          if v ∈ carried.map (·.2) then some (core.cpu.carried v) else σ1.env.get? v by
    obtain ⟨σ', hrun, hmemory, hkeeps, hget⟩ := hlist _ hfresh' rfl .refl rfl hy
    refine ⟨σ', hrun, hmemory, hkeeps, fun l v hv => ?_⟩
    have hmem := mem_toList.2 hv
    rw [hget, if_pos (List.mem_map.2 ⟨(l, v), hmem, rfl⟩), (hfresh' _ hmem).1]
  clear hy hfresh hfresh'
  intro carried
  induction carried with
  | nil =>
    intro _ p1 p' σ1 _ hkeeps hmemory hy
    obtain ⟨-, rfl⟩ := hy.of_pure
    refine ⟨σ1, ?_, hmemory, hkeeps, fun v => rfl⟩
    rw [emitted_self]
    rfl
  | cons a rest ih =>
    intro hcarried p1 p' σ1 hissue hkeeps hmemory hy
    obtain ⟨_, p2, hfirst, hrest⟩ := hy.of_bind
    obtain ⟨e, p3, hread, hemit⟩ := hfirst.of_bind
    obtain ⟨he, rfl⟩ := Yields.ofExcept_iff.1 hread
    obtain rfl := yields_emit.1 hemit
    obtain ⟨hvalue, hnew⟩ := hcarried a List.mem_cons_self
    let written : Progress := { p3 with out := p3.out.push (.assign a.2 e) }
    -- What is read was in use before, and no assignment changes that.
    have heval : e.eval S.host.function σ1.env σ1.memory = .ok (core.cpu.carried a.2) := by
      rw [hvalue]
      exact ((hm.describes.of_read he).mono (hkeeps.known_le (.refl _))).eval_known _
    have hkeeps1 : σ.env.Keeps p.issue (σ1.assign a.2 (core.cpu.carried a.2)).env :=
      hkeeps.trans (keeps_set hnew _) (.refl _)
    have hissue1 : written.issue = p.issue := hissue
    obtain ⟨σ', hrun, hmemory', hkeeps', hget⟩ :=
      ih (fun b hb => hcarried b (List.mem_cons_of_mem a hb)) hissue1 hkeeps1 hmemory hrest
    refine ⟨σ', ?_, hmemory', hkeeps', fun v => ?_⟩
    · have hsteady : ∀ b : Location × Variable,
          Steady (do emit (.assign b.2 (← Gen.read s b.1 f.header))) := fun b =>
        .bind (threads_steady.read False.elim b.1 f.header) fun _ => steady_emit _
      have hout := ((threads_steady.forM fun b _ => hsteady b).grows hrest).out
      have hpush : p3.out.toList <+: written.out.toList := prefix_push rfl
      rw [emitted_trans hpush hout, emitted_push rfl,
        Host.run_append_of_normal (Host.run_assign heval)]
      exact hrun
    · rw [hget, List.map_cons]
      show (if v ∈ rest.map (·.2) then _ else (σ1.env.set a.2 _).get? v) = _
      rw [get?_set]
      by_cases hv : v ∈ rest.map (·.2)
      · rw [if_pos hv, if_pos (List.mem_cons_of_mem _ hv)]
      · rw [if_neg hv]
        by_cases hva : v = a.2
        · rw [if_pos hva, if_pos (by rw [hva]; exact List.mem_cons_self), hva]
        · rw [if_neg hva, if_neg (by simpa [hva] using hv)]

theorem sound_leaveLoop (label : Option String) :
    S.Sound labels (S.generator.leaveLoop label) fun core => .ok (.breakLoop label, core) := by
  intro bases s core p σ flow p' hy hok hfresh _ hm
  obtain ⟨k, p1, hposition, hy1⟩ := hy.of_bind
  obtain ⟨hk, rfl⟩ := yields_framePosition.1 hposition
  obtain ⟨_, p2, hrecord, hy2⟩ := hy1.of_bind
  obtain ⟨rfl, rfl⟩ := yields_emit_pure.1 hy2
  obtain ⟨f, i, hf, hi⟩ := exists_frame hk hok
  obtain ⟨q, hfollow, rfl⟩ := (yields_recordBreak hf).1 hrecord
  obtain ⟨htemps, hmerges, hframes, hout⟩ := yields_assignFollow hfollow
  have hissue : q.issue = p1.issue := by
    unfold issue
    rw [htemps, hmerges]
  have hnew : ∀ l v, (f.follow.getD .empty).get l = some v →
      (∃ id, v = .merge l id) ∧ ¬ v.IsIssued p1.issue := fun l v hv => by
    have h := hfresh f (List.mem_of_getElem? hf) l v hv
    rw [← hissue]
    exact h
  obtain ⟨σ', hrun, hmemory, hkeeps, hvalues⟩ := run_assignFollow hfollow hnew hm
  refine ⟨k, { f with breaks := f.breaks ++ [s] }, i, σ', hk, ?_, hi, ?_, ?_, ?_, hvalues⟩
  · rw [hframes, List.getElem?_set_self (List.getElem?_eq_some_iff.1 hf).1]
  · exact Eq.trans (Host.run_push hout hrun rfl) rfl
  · exact hkeeps.mono (hok.le i (List.mem_of_getElem? hi))
  · refine ⟨s, by simp, ⟨?_, hmemory.trans hm.memory⟩⟩
    refine hm.describes.mono (hkeeps.known_le ?_)
    show p1.issue.Le q.issue
    rw [hissue]
    exact .refl _

/-! ## Control leaves the tree -/

theorem sound_block (hcalls : S.CallsMirror) (b : BlockId) :
    S.Sound labels (S.generator.block b) fun core => wayOf (S.machine.run b core) :=
  fun _ _ _ _ _ _ _ hy hok _ _ hm => mirrors_block hcalls hy hok hm

/-- In a dispatch loop each location travels in a variable of its own. -/
def PlanOk (S : Stage) : Prop :=
  ∀ plan, S.generator.dispatch = some plan → ∀ l, ∃ id, plan.carriers.get l = .merge l id

theorem run_settleFor (hplan : S.PlanOk) (hy : Yields (S.generator.settleFor target s) p u p')
    (hm : Matches issue core S.base s p σ) :
    ∃ σ', S.host.run (p.emitted p') σ = .ok (.normal, σ') ∧ S.AtArm target core σ' := by
  unfold settleFor at hy
  simp only at hy
  split at hy
  · exact absurd hy Yields.not_throw
  next plan hdispatch =>
  split at hy
  · exact absurd hy Yields.not_throw
  next hdepth =>
  obtain ⟨values, p1, hvalues, hy1⟩ := hy.of_bind
  obtain ⟨rfl, -, hread, hall⟩ := yields_readAll hvalues
  obtain ⟨_, p2, hassign, hemit⟩ := hy1.of_bind
  obtain rfl := yields_emit.1 hemit
  have hcarriers := hplan plan hdispatch
  have hassignments : ∀ a ∈ values.filter fun a => a.2 != .var a.1, (∀ id, a.1 ≠ .temp id) ∧
      a.2.HasValue (σ.env.known p1.issue) (core.cpu.carried a.1) := by
    intro a ha
    obtain ⟨l, -, hkey, hvalue⟩ := hread a (List.mem_filter.1 ha).1
    obtain ⟨id, hid⟩ := hcarriers l
    rw [hkey, hid]
    exact ⟨fun _ h => (by cases h), hm.describes.hasValue hvalue⟩
  obtain ⟨hmore, σ', hrun, hmemory, hnew, hold, -⟩ :=
    run_assignAtOnce issue (H := S.host) (σ := σ) hassignments hassign
  refine ⟨σ'.assign .dispatch (UInt32.ofNat target),
    Eq.trans (Host.run_push hmore.out hrun rfl) rfl, ?_⟩
  have hempty : s.stack = [] :=
    List.eq_nil_of_length_eq_zero (by simpa [SymbolicState.depth] using hdepth)
  have hstack := hm.describes.stack
  rw [hempty] at hstack
  refine ⟨by rw [hdispatch]; rfl, hmemory.trans hm.memory, hstack, ?_, fun plan' hplan' l hl => ?_⟩
  · show (σ'.env.set _ _).get? _ = _
    rw [get?_set, if_pos rfl]
  · rw [hdispatch] at hplan'
    cases hplan'
    obtain ⟨id, hid⟩ := hcarriers l
    obtain ⟨e, hmem, hvalue⟩ := hall l (LocationSet.mem_toList.2 hl)
    have hhas := hm.describes.hasValue hvalue
    show (σ'.env.set _ _).get? _ = _
    rw [get?_set, if_neg (by rw [hid]; intro h; cases h)]
    by_cases hassigned : plan.carriers.get l ∈ (values.filter fun a => a.2 != .var a.1).map (·.1)
    · rw [hnew _ hassigned, hid]
      rfl
    · -- The value is in the variable already.
      have he : e = .var (plan.carriers.get l) := Classical.byContradiction fun hne =>
        hassigned (List.mem_map.2 ⟨_, List.mem_filter.2 ⟨hmem, by simpa using hne⟩, rfl⟩)
      rw [he] at hhas
      cases hhas with
      | var h =>
        rw [hold _ (isIssued_of_known (by rw [h]; rfl)) hassigned]
        exact σ.env.known_le p1.issue _ _ h

theorem ends_handOver (hcalls : S.CallsMirror) (hy : Yields (S.generator.handOver target s) p u p')
    (hm : Matches issue core S.base s p σ) :
    S.Ends (S.setting.finish S.call (.away target, core)) (S.host.run (p.emitted p') σ) := by
  unfold handOver at hy
  simp only at hy
  split at hy
  · exact absurd hy Yields.not_throw
  next callee hcallee =>
  obtain ⟨s1, p1, hcall, hret⟩ := hy.of_bind
  have hruns := callRuns_call hcalls hcallee hcall hm
  have hout := ((threads_steady.callTo False.elim callee _).grows hcall).out
  have hout' := ((threads_steady.ret False.elim _).grows hret).out
  have hfinish : S.setting.finish S.call (.away target, core) = S.call callee core := by
    have hentry : S.setting.routines.atEntry? target = some callee := hcallee
    simp only [Setting.finish, hentry]
  rw [hfinish, emitted_trans hout hout']
  rcases hresult : S.call callee core with e | core' <;> rw [hresult] at hruns
  · obtain ⟨e', he', hrun⟩ := hruns
    refine ⟨e', he', ?_⟩
    rw [Host.run_append_of_ne_normal (fun σ' => by simp [hrun]), hrun]
  · obtain ⟨σ1, hmove, hm1⟩ := hruns
    rw [Host.run_append_of_normal hmove.run]
    exact returns_ret hret hm1

theorem sound_goto (hcalls : S.CallsMirror) (hplan : S.PlanOk) (target : BlockId) :
    S.Sound labels (S.generator.goto target) fun core => .ok (.away target, core) := by
  intro bases s core p σ flow p' hy _ _ _ hm
  unfold Generator.goto at hy
  split at hy
  · next hin =>
    obtain ⟨_, p1, hsettle, hy1⟩ := hy.of_bind
    obtain ⟨rfl, rfl⟩ := yields_emit_pure.1 hy1
    obtain ⟨σ', hrun, hat⟩ := run_settleFor hplan hsettle hm
    have hout := ((threads_steady.settleFor False.elim False.elim target fun _ =>
      trivial).grows hsettle).out
    have hsent : S.host.run (p.emitted
        { p1 with out := p1.out.push (.continueLoop (some dispatchLabel)) }) σ =
        .ok (.continueLoop (some dispatchLabel), σ') :=
      Eq.trans (Host.run_push hout hrun rfl) rfl
    rw [hsent]
    exact hat.mirrors (BlockSet.contains_iff.1 hin)
  · next hout =>
    obtain ⟨_, hhand, rfl⟩ := Yields.bind_pure_iff.1 hy
    exact (ends_handOver hcalls hhand hm).mirrors fun hin => hout (BlockSet.contains_iff.2 hin)

end Stage

end Lift6502
