import Lift6502.Proofs.Tree.Arrange

/-!
# How a tree is arranged

A run of the arrangement that succeeds, step by step. Laws of arranged trees are proved by induction
on these derivations.
-/

namespace Lift6502

open ControlNode Arrangement Yields

namespace Arrangement

variable {s s' : Arrangement} {b c : BlockId}

def look (s : Arrangement) (l : Layout) (scope : Scope) (target : BlockId) : Arrangement :=
  { s with
    labelled := (l.view scope target).2.elim s.labelled s.labelled.insert
    viewed := s.viewed ++ [(scope, target)] }

def put (s : Arrangement) (b : BlockId) : Arrangement := { s with placed := s.placed.insert b }

def say (s : Arrangement) (message : String) : Arrangement :=
  { s with journal := s.journal ++ [.debug ("[reconstruct] " ++ message)] }

@[simp] theorem placed_look (l : Layout) (scope : Scope) (target : BlockId) :
    (s.look l scope target).placed = s.placed := rfl

@[simp] theorem placed_say (message : String) : (s.say message).placed = s.placed := rfl

@[simp] theorem mem_placed_put : c ∈ (s.put b).placed ↔ c = b ∨ c ∈ s.placed :=
  BlockSet.mem_insert

theorem grows_look (s : Arrangement) (l : Layout) (scope : Scope) (target : BlockId) :
    s.Grows (s.look l scope target) := by
  refine ⟨fun _ h => h, fun c hc => ?_, fun v hv => List.mem_append_left _ hv⟩
  unfold look
  cases (l.view scope target).2 with
  | none => exact hc
  | some header => exact BlockSet.mem_insert.2 (.inr hc)

theorem grows_put (s : Arrangement) (b : BlockId) : s.Grows (s.put b) :=
  ⟨fun _ h => BlockSet.mem_insert.2 (.inr h), fun _ h => h, fun _ h => h⟩

theorem grows_say (s : Arrangement) (message : String) : s.Grows (s.say message) :=
  ⟨fun _ h => h, fun _ h => h, fun _ h => h⟩

theorem mem_labelled_look {l : Layout} {scope : Scope} {target header : BlockId}
    (h : (l.view scope target).2 = some header) : header ∈ (s.look l scope target).labelled := by
  unfold look
  rw [h]
  exact BlockSet.mem_insert.2 (.inl rfl)

end Arrangement

namespace Layout

variable {l : Layout} {scope : Scope} {s s' : Arrangement}

theorem yields_viewEdge_iff {target : BlockId} {v : EdgeView} : Yields (l.viewEdge scope target)
      s v s' ↔ v = (l.view scope target).1 ∧ s' = s.look l scope target := by
  unfold viewEdge
  simp only [bind_iff, modify_iff, pure_iff]
  constructor
  · rintro ⟨_, _, rfl, rfl, rfl⟩
    exact ⟨rfl, rfl⟩
  · rintro ⟨rfl, rfl⟩
    exact ⟨(), _, rfl, rfl, rfl⟩

def scopeOf (l : Layout) (loop : NaturalLoop) : LoopScope where
  header := loop.header
  follow := followOf? l.graph l.dominators loop l.routine.blocks
  body := loop.body
  label := l.graph.name loop.header

/-- The position inside a loop, with the blocks where control goes on inside it. -/
def inside (l : Layout) (scope : Scope) (loop : NaturalLoop) (stops : List BlockId) : Scope :=
  ⟨l.scopeOf loop :: scope.enclosing, stops⟩

def formOf (l : Layout) (loop : NaturalLoop) : LoopForm := l.loopForm loop (l.scopeOf loop).follow

def loopNote (l : Layout) (loop : NaturalLoop) : String :=
  (l.formOf loop).kind.text ++ " loop at " ++ l.graph.name loop.header ++ " follow=" ++
    Text.quotedOption ((l.scopeOf loop).follow.map l.graph.name)

def ifNote (l : Layout) (b : BlockId) (join : Option BlockId) : String :=
  "if at " ++ l.graph.name b ++ " join=" ++ Text.quotedOption (join.map l.graph.name)

def labelFor (l : Layout) (loop : NaturalLoop) (s : Arrangement) : Option String :=
  if s.labelled.contains loop.header then some (l.graph.name loop.header) else none

/-- A block with two different exits that its last instruction chooses from. -/
def ChoosesBetween (l : Layout) (b taken fall : BlockId) : Prop :=
  (l.graph.block b).branch = some taken ∧ (l.graph.block b).fallThrough = some fall ∧
    taken ≠ fall ∧ (l.graph.block b).isConditional = true

/-- A block is arranged by itself if it is no header of a loop, or if its loop is
around it already. -/
def StandsAlone (l : Layout) (scope : Scope) (b : BlockId) : Prop :=
  l.loops.get? b = none ∨ ∃ c ∈ scope.enclosing, c.header = b

inductive Task where
  /-- Everything from a block on. -/
  | path (scope : Scope) (start : BlockId)
  /-- What an edge leads to. -/
  | arm (scope : Scope) (target : BlockId)
  /-- The block or the loop at the start of a path. -/
  | first (scope : Scope) (start : BlockId)
  /-- The conditional at the end of a block. -/
  | branch (scope : Scope) (b taken fall : BlockId)

def Task.start? : Task → Option BlockId
  | .path _ start | .first _ start => some start
  | .arm .. | .branch .. => none

def Task.position : Task → Scope
  | .path scope _ | .arm scope _ | .first scope _ | .branch scope _ _ _ => scope

/-- The task is done with some nodes; the path then goes on at a block or ends. -/
inductive Arranged (l : Layout) : Task → Arrangement → List ControlNode → Option BlockId →
    Arrangement → Prop where
  | ends {scope start s nodes s'} (front : Arranged l (.first scope start) s nodes none s') :
      Arranged l (.path scope start) s nodes none s'
  | goesOn {scope start s nodes next s₁ rest s'}
      (front : Arranged l (.first scope start) s nodes (some next) s₁)
      (back : Arranged l (.arm scope next) s₁ rest none s') :
      Arranged l (.path scope start) s (nodes ++ rest) none s'
  | onward {scope target s nodes s'} (view : (l.view scope target).1 = .onward)
      (path : Arranged l (.path scope target) (s.look l scope target) nodes none s') :
      Arranged l (.arm scope target) s nodes none s'
  | exit {scope target s nodes s'} (view : (l.view scope target).1 = .exit)
      (path : Arranged l (.path scope.unstopped target) (s.look l scope target) nodes none s') :
      Arranged l (.arm scope target) s nodes none s'
  | stop {scope target s} (view : (l.view scope target).1 = .stop) :
      Arranged l (.arm scope target) s [] none (s.look l scope target)
  | jump {scope target s node} (view : (l.view scope target).1 = .jump node) :
      Arranged l (.arm scope target) s [node] none (s.look l scope target)
  | plain {scope start s} (alone : l.StandsAlone scope start) (fresh : start ∉ s.placed)
      (single : ∀ taken fall, ¬ l.ChoosesBetween start taken fall) :
      Arranged l (.first scope start) s [.block start] (l.graph.successors start).head?
        (s.put start)
  | chooses {scope start taken fall s nodes next s'} (alone : l.StandsAlone scope start)
      (fresh : start ∉ s.placed)
      (exits : l.ChoosesBetween start taken fall)
      (branch : Arranged l (.branch scope start taken fall) (s.put start) nodes next s') :
      Arranged l (.first scope start) s (.block start :: nodes) next s'
  | infinite {scope loop s body s'} (mem : loop ∈ l.loops.loops)
      (new : ∀ c ∈ scope.enclosing, c.header ≠ loop.header) (form : l.formOf loop = .infinite)
      (path : Arranged l (.path (l.inside scope loop []) loop.header) (s.say (l.loopNote loop)) body
        none s') :
      Arranged l (.first scope loop.header) s
        [.loop .infinite loop.header none (withoutFinalContinue body) (l.labelFor loop s')
          (l.scopeOf loop).follow] (l.scopeOf loop).follow s'
  | preTest {scope loop entry s body s'} (mem : loop ∈ l.loops.loops)
      (new : ∀ c ∈ scope.enclosing, c.header ≠ loop.header) (form : l.formOf loop = .preTest entry)
      (fresh : loop.header ∉ s.placed)
      (arm : Arranged l (.arm (l.inside scope loop []) entry)
        ((s.say (l.loopNote loop)).put loop.header) body none s') :
      Arranged l (.first scope loop.header) s
        [.loop .preTest loop.header
          (some (.branch loop.header ((l.graph.block loop.header).branch == some entry)))
          (withoutFinalContinue body) (l.labelFor loop s') (l.scopeOf loop).follow]
        (l.scopeOf loop).follow s'
  | postTest {scope loop latch s before s'} (mem : loop ∈ l.loops.loops)
      (new : ∀ c ∈ scope.enclosing, c.header ≠ loop.header) (form : l.formOf loop = .postTest latch)
      (apart : latch ≠ loop.header)
      (path : Arranged l (.path (l.inside scope loop [latch]) loop.header) (s.say (l.loopNote loop))
        before none s')
      (fresh : latch ∉ s'.placed) :
      Arranged l (.first scope loop.header) s
        [.loop .postTest loop.header
          (some (.branch latch ((l.graph.block latch).branch == some loop.header)))
          (before ++ [.block latch]) (l.labelFor loop s') (l.scopeOf loop).follow]
        (l.scopeOf loop).follow (s'.put latch)
  | selfLoop {scope loop s} (mem : loop ∈ l.loops.loops)
      (new : ∀ c ∈ scope.enclosing, c.header ≠ loop.header)
      (form : l.formOf loop = .postTest loop.header) (fresh : loop.header ∉ s.placed) :
      Arranged l (.first scope loop.header) s
        [.loop .postTest loop.header
          (some (.branch loop.header ((l.graph.block loop.header).branch == some loop.header)))
          [.block loop.header] (l.labelFor loop s) (l.scopeOf loop).follow]
        (l.scopeOf loop).follow ((s.say (l.loopNote loop)).put loop.header)
  | meets {scope b taken fall s join takenArm s₁ fallArm s' node}
      (takenView : (l.view scope taken).1 = .onward) (fallView : (l.view scope fall).1 = .onward)
      (join_eq : meetingPoint? l.graph l.dominators (l.isForward scope) b taken fall = join)
      (takenRun : Arranged l (.arm { scope with stops := join.toList ++ scope.stops } taken)
        ((s.look l scope taken).look l scope fall) takenArm none s₁)
      (fallRun : Arranged l (.arm { scope with stops := join.toList ++ scope.stops } fall) s₁
        fallArm none s')
      (node_eq : node = .cond (.branch b false) fallArm takenArm join ∨
        node = .cond (.branch b true) takenArm fallArm join) :
      Arranged l (.branch scope b taken fall) s [node] join (s'.say (l.ifNote b join))
  | resumes {scope b taken fall s} (takenView : (l.view scope taken).1 = .stop)
      (fallView : (l.view scope fall).1 = .stop) :
      Arranged l (.branch scope b taken fall) s [] none ((s.look l scope taken).look l scope fall)
  | onTaken {scope b taken fall s arm s' join next}
      (other : (l.view scope fall).1 = .stop ∧ next = none ∨
        (l.view scope fall).1 = .onward ∧ next = some fall)
      (away : next = none ∨ (l.view scope taken).1.leaves = true)
      (run : Arranged l (.arm scope taken) ((s.look l scope taken).look l scope fall) arm none s') :
      Arranged l (.branch scope b taken fall) s [.cond (.branch b true) arm [] join] next s'
  | onFall {scope b taken fall s arm s' join next}
      (other : (l.view scope taken).1 = .stop ∧ next = none ∨
        (l.view scope taken).1 = .onward ∧ next = some taken)
      (away : next = none ∨ (l.view scope fall).1.leaves = true)
      (run : Arranged l (.arm scope fall) ((s.look l scope taken).look l scope fall) arm none s') :
      Arranged l (.branch scope b taken fall) s [.cond (.branch b false) arm [] join] next s'
  | parts {scope b taken fall s takenArm s₁ fallArm s'}
      (takenRun : Arranged l (.arm scope taken) ((s.look l scope taken).look l scope fall) takenArm
        none s₁)
      (fallRun : Arranged l (.arm scope fall) s₁ fallArm none s') :
      Arranged l (.branch scope b taken fall) s [.cond (.branch b true) takenArm fallArm none] none
        s'

/-! ## Successful runs have a derivation -/

/-- A rule whose successful runs have a derivation. -/
def Derives (l : Layout) (sequence : Sequencer) : Prop :=
  ∀ scope start s nodes s', Yields (sequence scope start) s nodes s' →
    l.Arranged (.path scope start) s nodes none s'

variable {sequence : Sequencer} {nodes : List ControlNode} {next : Option BlockId} {start : BlockId}

theorem yields_note_iff {message : String} {u : Unit} :
    Yields (note message) s u s' ↔ s' = s.say message := modify_iff

theorem Derives.arm (hseq : l.Derives sequence) {target : BlockId}
    (h : Yields (l.arm sequence scope target) s nodes s') :
    l.Arranged (.arm scope target) s nodes none s' := by
  unfold Layout.arm at h
  obtain ⟨v, s1, hview, h⟩ := h.of_bind
  obtain ⟨rfl, rfl⟩ := yields_viewEdge_iff.1 hview
  split at h
  · next hv => exact .onward hv (hseq _ _ _ _ _ h)
  · next hv => exact .exit hv (hseq _ _ _ _ _ h)
  · next hv =>
    obtain ⟨rfl, rfl⟩ := h.of_pure
    exact .stop hv
  · next node hv =>
    obtain ⟨rfl, rfl⟩ := h.of_pure
    exact .jump hv

theorem EdgeView.eq_of_leaves_eq_false {v : EdgeView} (h : v.leaves = false) :
    v = .onward ∨ v = .stop := by
  cases v with
  | onward => exact .inl rfl
  | stop => exact .inr rfl
  | exit | jump => cases h

section

variable (hseq : l.Derives sequence)

include hseq

theorem Derives.arrangeBranch {b taken fall : BlockId}
    (h : Yields (l.arrangeBranch sequence scope b taken fall) s (nodes, next) s') :
    l.Arranged (.branch scope b taken fall) s nodes next s' := by
  unfold Layout.arrangeBranch at h
  obtain ⟨takenView, s1, htaken, h⟩ := h.of_bind
  obtain ⟨fallView, s2, hfall, h⟩ := h.of_bind
  obtain ⟨rfl, rfl⟩ := yields_viewEdge_iff.1 htaken
  obtain ⟨rfl, rfl⟩ := yields_viewEdge_iff.1 hfall
  split at h
  · next htv hfv =>
    unfold arrangeIf at h
    obtain ⟨takenArm, s3, htakenRun, h⟩ := h.of_bind
    obtain ⟨fallArm, s4, hfallRun, h⟩ := h.of_bind
    obtain ⟨_, hnote, heq⟩ := bind_pure_iff.1 h
    cases heq
    rw [yields_note_iff.1 hnote]
    refine .meets htv hfv rfl (hseq.arm htakenRun) (hseq.arm hfallRun) ?_
    split
    · exact .inl rfl
    · exact .inr rfl
  · next htv hfv =>
    obtain ⟨arm, hrun, heq⟩ := bind_pure_iff.1 h
    cases heq
    exact .onTaken (.inl ⟨hfv, rfl⟩) (.inl rfl) (hseq.arm hrun)
  · next htv hfv =>
    obtain ⟨arm, hrun, heq⟩ := bind_pure_iff.1 h
    cases heq
    exact .onFall (.inl ⟨htv, rfl⟩) (.inl rfl) (hseq.arm hrun)
  · next htv hfv =>
    obtain ⟨heq, rfl⟩ := h.of_pure
    cases heq
    exact .resumes htv hfv
  · split at h
    · next hleaves =>
      obtain ⟨arm, hrun, heq⟩ := bind_pure_iff.1 h
      cases heq
      simp only [Bool.and_eq_true, Bool.not_eq_true'] at hleaves
      refine .onTaken ?_ (.inr hleaves.1) (hseq.arm hrun)
      rcases EdgeView.eq_of_leaves_eq_false hleaves.2 with hv | hv
      · exact .inr ⟨hv, by rw [hv]; rfl⟩
      · exact .inl ⟨hv, by rw [hv]; rfl⟩
    · split at h
      · next hleaves =>
        obtain ⟨arm, hrun, heq⟩ := bind_pure_iff.1 h
        cases heq
        simp only [Bool.and_eq_true, Bool.not_eq_true'] at hleaves
        refine .onFall ?_ (.inr hleaves.1) (hseq.arm hrun)
        rcases EdgeView.eq_of_leaves_eq_false hleaves.2 with hv | hv
        · exact .inr ⟨hv, by rw [hv]; rfl⟩
        · exact .inl ⟨hv, by rw [hv]; rfl⟩
      · obtain ⟨takenArm, s3, htakenRun, h⟩ := h.of_bind
        obtain ⟨fallArm, hfallRun, heq⟩ := bind_pure_iff.1 h
        cases heq
        exact .parts (hseq.arm htakenRun) (hseq.arm hfallRun)

theorem Derives.arrangeBlock (halone : l.StandsAlone scope start)
    (h : Yields (l.arrangeBlock sequence scope start) s (nodes, next) s') :
    l.Arranged (.first scope start) s nodes next s' := by
  unfold Layout.arrangeBlock at h
  obtain ⟨_, s1, hplace, h⟩ := h.of_bind
  obtain ⟨hfresh, rfl⟩ := yields_place hplace
  simp only at h
  split at h
  · next taken fall hbranch hbelow =>
    split at h
    · next hchooses =>
      obtain ⟨⟨inner, next'⟩, hrun, heq⟩ := bind_pure_iff.1 h
      cases heq
      exact .chooses halone hfresh ⟨hbranch, hbelow, hchooses⟩ (hseq.arrangeBranch hrun)
    · next hsingle =>
      obtain ⟨heq, rfl⟩ := h.of_pure
      cases heq
      have hhead : some fall = (l.graph.successors start).head? := by
        rw [Graph.successors, Block.successors, hbranch, hbelow]
        simp only
        split <;> rfl
      rw [hhead]
      refine .plain halone hfresh fun taken' fall' hexits => hsingle ?_
      cases hbranch.symm.trans hexits.1
      cases hbelow.symm.trans hexits.2.1
      exact hexits.2.2
  · next hnot =>
    obtain ⟨heq, rfl⟩ := h.of_pure
    cases heq
    exact .plain halone hfresh fun taken fall hexits => hnot taken fall hexits.1 hexits.2.1

theorem Derives.arrangeLoop {loop : NaturalLoop} (hmem : loop ∈ l.loops.loops)
    (hnew : ∀ c ∈ scope.enclosing, c.header ≠ loop.header)
    (h : Yields (l.arrangeLoop sequence scope loop) s (nodes, next) s') :
    l.Arranged (.first scope loop.header) s nodes next s' := by
  unfold Layout.arrangeLoop at h
  obtain ⟨_, s1, hnote, h⟩ := h.of_bind
  obtain ⟨⟨condition, body⟩, s2, hbody, h⟩ := h.of_bind
  have hpure := get_bind_iff.1 h
  obtain ⟨heq, rfl⟩ := hpure.of_pure
  cases heq
  have hsay : s1 = s.say (l.loopNote loop) := yields_note_iff.1 hnote
  subst hsay
  have hform : l.loopForm loop (followOf? l.graph l.dominators loop l.routine.blocks) =
      l.formOf loop := rfl
  rw [hform] at hbody ⊢
  cases hkind : l.formOf loop with
  | infinite =>
    rw [hkind] at hbody
    obtain ⟨body', hrun, heq⟩ := bind_pure_iff.1 hbody
    cases heq
    exact .infinite hmem hnew hkind (hseq _ _ _ _ _ hrun)
  | preTest entry =>
    rw [hkind] at hbody
    obtain ⟨_, s4, hplace, hbody⟩ := hbody.of_bind
    obtain ⟨hfresh, rfl⟩ := yields_place hplace
    obtain ⟨body', hrun, heq⟩ := bind_pure_iff.1 hbody
    cases heq
    exact .preTest hmem hnew hkind hfresh (hseq.arm hrun)
  | postTest latch =>
    rw [hkind] at hbody
    obtain ⟨before, s4, hbefore, hbody⟩ := hbody.of_bind
    obtain ⟨_, s5, hplace, hpure⟩ := hbody.of_bind
    obtain ⟨hfresh, rfl⟩ := yields_place hplace
    obtain ⟨heq, rfl⟩ := hpure.of_pure
    cases heq
    have hlast : withoutFinalContinue (before ++ [.block latch]) = before ++ [.block latch] := by
      simp [withoutFinalContinue]
    rw [hlast]
    by_cases hsame : latch = loop.header
    · rw [if_pos hsame] at hbefore
      obtain ⟨rfl, rfl⟩ := hbefore.of_pure
      subst hsame
      exact .selfLoop hmem hnew hkind hfresh
    · rw [if_neg hsame] at hbefore
      exact .postTest hmem hnew hkind hsame (hseq _ _ _ _ _ hbefore) hfresh

theorem Derives.arrangeFirst (h : Yields (l.arrangeFirst sequence scope start) s (nodes, next) s') :
    l.Arranged (.first scope start) s nodes next s' := by
  unfold Layout.arrangeFirst at h
  split at h
  · next hany =>
    obtain ⟨c, hc, heq⟩ := List.any_eq_true.1 hany
    exact hseq.arrangeBlock (.inr ⟨c, hc, by simpa using heq⟩) h
  · next hany =>
    split at h
    · next loop hget =>
      have hheader : loop.header = start := by simpa using List.find?_some hget
      subst hheader
      refine hseq.arrangeLoop (List.mem_of_find?_eq_some hget) (fun c hc heq => ?_) h
      exact hany (List.any_eq_true.2 ⟨c, hc, by simpa using heq⟩)
    · next hget => exact hseq.arrangeBlock (.inl hget) h

end

theorem derives_sequence (l : Layout) (fuel : Nat) : l.Derives (l.sequence fuel) := by
  induction fuel with
  | zero => exact fun _ _ _ _ _ h => absurd h not_throw
  | succ fuel ih =>
    intro scope start s nodes s' h
    rw [sequence] at h
    obtain ⟨⟨front, next⟩, s1, hfront, h⟩ := h.of_bind
    have hfirst := Derives.arrangeFirst ih hfront
    cases next with
    | none =>
      obtain ⟨rfl, rfl⟩ := h.of_pure
      exact .ends hfirst
    | some next =>
      obtain ⟨rest, hrest, rfl⟩ := bind_pure_iff.1 h
      exact .goesOn hfirst (Derives.arm ih hrest)

/-! ## What is placed stays placed, and only once -/

namespace Arranged

variable {task : Task}

theorem grows (h : l.Arranged task s nodes next s') : s.Grows s' := by
  induction h with
  | ends _ ih => exact ih
  | goesOn _ _ ih1 ih2 => exact ih1.trans ih2
  | onward _ _ ih | exit _ _ ih => exact (grows_look ..).trans ih
  | stop | jump => exact grows_look ..
  | plain => exact grows_put ..
  | chooses _ _ _ _ ih => exact (grows_put ..).trans ih
  | infinite _ _ _ _ ih => exact (grows_say ..).trans ih
  | preTest _ _ _ _ _ ih =>
    exact ((grows_say ..).trans (grows_put ..)).trans ih
  | postTest _ _ _ _ _ _ ih =>
    exact ((grows_say ..).trans ih).trans (grows_put ..)
  | selfLoop => exact (grows_say ..).trans (grows_put ..)
  | meets _ _ _ _ _ _ ih1 ih2 =>
    exact ((((grows_look ..).trans (grows_look ..)).trans ih1).trans
      ih2).trans (grows_say ..)
  | resumes => exact (grows_look ..).trans (grows_look ..)
  | onTaken _ _ _ ih | onFall _ _ _ ih =>
    exact ((grows_look ..).trans (grows_look ..)).trans ih
  | parts _ _ ih1 ih2 =>
    exact (((grows_look ..).trans (grows_look ..)).trans ih1).trans ih2

theorem fresh (h : l.Arranged task s nodes next s')
    (hstart : task.start? = some start) : start ∉ s.placed ∧ start ∈ s'.placed := by
  induction h with
  | ends _ ih => exact ih hstart
  | goesOn _ back ih => exact ⟨(ih hstart).1, back.grows.placed _ (ih hstart).2⟩
  | plain _ fresh =>
    cases hstart
    exact ⟨fresh, by simp⟩
  | chooses _ fresh _ branch =>
    cases hstart
    exact ⟨fresh, branch.grows.placed _ (by simp)⟩
  | infinite _ _ _ _ ih =>
    cases hstart
    exact ih rfl
  | preTest _ _ _ fresh arm =>
    cases hstart
    exact ⟨fresh, arm.grows.placed _ (by simp)⟩
  | postTest _ _ _ _ _ _ ih =>
    cases hstart
    exact ⟨(ih rfl).1, mem_placed_put.2 (.inr (ih rfl).2)⟩
  | selfLoop _ _ _ fresh =>
    cases hstart
    exact ⟨fresh, by simp⟩
  | _ => cases hstart

end Arranged

end Layout

end Lift6502
