import Lift6502.Proofs.Flow.Graph
import Lift6502.Proofs.Routine.Partition

/-!
# Routines exchange control through entries only

Every block belongs to one routine, and what a routine can run leads to its own blocks and to
entries.
-/

namespace Lift6502

open Territory BlockSet

namespace BlockSet

theorem nodup_toList (s : BlockSet) : s.toList.Nodup := s.ascending.imp Nat.ne_of_lt

theorem size_eq_card (s : BlockSet) : s.size = s.toList.toFinset.card :=
  (List.toFinset_card_of_nodup s.nodup_toList).symm

theorem size_lt_size {s t : BlockSet} {b : BlockId} (hsub : ∀ c ∈ s, c ∈ t) (hb : b ∈ t)
    (hnot : b ∉ s) : s.size < t.size := by
  rw [size_eq_card, size_eq_card]
  apply Finset.card_lt_card
  refine ⟨fun c hc => ?_, fun hback => ?_⟩
  · rw [List.mem_toFinset] at hc ⊢
    exact hsub c hc
  · have hmem := hback (List.mem_toFinset.2 hb)
    exact hnot (List.mem_toFinset.1 hmem)

theorem mem_of_le_size {s : BlockSet} {n : Nat} (hs : ∀ b ∈ s, b < n) (hn : n ≤ s.size)
    {b : BlockId} (hb : b < n) : b ∈ s := by
  have hsub : s.toList.toFinset ⊆ Finset.range n := by
    intro c hc
    exact Finset.mem_range.2 (hs c (List.mem_toFinset.1 hc))
  have heq : s.toList.toFinset = Finset.range n := by
    apply Finset.eq_of_subset_of_card_le hsub
    rw [Finset.card_range, ← size_eq_card]
    exact hn
  have hmem : b ∈ s.toList.toFinset := by
    rw [heq]
    exact Finset.mem_range.2 hb
  exact List.mem_toFinset.1 hmem

end BlockSet

variable {t : Territory}

namespace Territory

variable {g : Graph} {entries roots : List BlockId} {claims : List Territory} {b : BlockId}

/-! ## Claims and where they lead -/

/-- A claim leads to itself, to entries, and into other claims. -/
def Bounded (g : Graph) (entries : List BlockId) (claims : List Territory) : Prop :=
  ∀ t ∈ claims, ∀ b ∈ t.blocks, ∀ s ∈ g.successors b,
    s ∈ t.blocks ∨ s ∈ entries ∨ ∃ u ∈ claims, s ∈ u.blocks

theorem bounded_claimAll (g : Graph) (entries : List BlockId) :
    Bounded g entries (claimAll g entries) := by
  unfold claimAll
  refine List.foldlRecOn entries _ (motive := Bounded g entries) (by simp [Bounded]) ?_
  intro claims hclaims entry _ t ht b hb s hs
  rcases List.mem_append.1 ht with ht | ht
  · rcases hclaims t ht b hb s hs with h | h | ⟨u, hu, h⟩
    · exact .inl h
    · exact .inr (.inl h)
    · exact .inr (.inr ⟨u, List.mem_append_left _ hu, h⟩)
  -- The new claim stops only at what is taken and at other entries.
  · rw [List.mem_singleton.1 ht] at hb ⊢
    have hsize : ∀ c, g.successors c ≠ [] → c < g.size :=
      fun _ => Graph.lt_size_of_successors_ne_nil
    rw [mem_ofList, mem_reachableAvoiding hsize] at hb
    by_cases havoided : s ∈ claims.flatMap (fun t => t.blocks.toList) ++ entries.filter (· != entry)
    · rcases List.mem_append.1 havoided with htaken | hother
      · obtain ⟨u, hu, hsu⟩ := mem_taken.1 htaken
        exact .inr (.inr ⟨u, List.mem_append_left _ hu, hsu⟩)
      · exact .inr (.inl (List.mem_filter.1 hother).1)
    · refine .inl ?_
      rw [mem_ofList, mem_reachableAvoiding hsize]
      exact hb.tail hs havoided

theorem lt_size_of_mem_claimAll (hg : g.IsClosed) (hentries : ∀ e ∈ entries, e < g.size) :
    ∀ t ∈ claimAll g entries, ∀ b ∈ t.blocks, b < g.size := by
  unfold claimAll
  refine List.foldlRecOn entries _ (motive := fun claims : List Territory =>
    ∀ t ∈ claims, ∀ b ∈ t.blocks, b < g.size) (by simp) ?_
  intro claims hclaims entry hentry t ht b hb
  rcases List.mem_append.1 ht with ht | ht
  · exact hclaims t ht b hb
  · rw [List.mem_singleton.1 ht, mem_ofList,
      mem_reachableAvoiding fun _ => Graph.lt_size_of_successors_ne_nil] at hb
    exact hb.mem_of_closed (s := (· < g.size)) (hentries entry hentry)
      fun _ _ _ hy _ => hg.successor_lt hy

theorem mem_boundary : b ∈ boundary g claims ↔
    ∃ t ∈ claims, ∃ c ∈ t.blocks, b ∈ (g.block c).calls.map (·.2) ∨
      (b ∈ g.successors c ∧ b ∉ t.blocks ∧ ∃ u ∈ claims, b ∈ u.blocks) := by
  simp only [boundary, List.mem_flatMap, List.mem_append, List.mem_filter, Bool.and_eq_true,
    Bool.not_eq_true', List.any_eq_true, contains,
    decide_eq_false_iff_not, decide_eq_true_eq, ← mem_iff]

theorem lt_size_of_mem_boundary (hg : g.IsClosed) (h : b ∈ boundary g claims) : b < g.size := by
  obtain ⟨t, -, c, -, hcall | ⟨hexit, -⟩⟩ := mem_boundary.1 h
  · obtain ⟨call, hmem, rfl⟩ := List.mem_map.1 hcall
    exact hg.call_lt hmem
  · exact hg.successor_lt hexit

theorem mem_entryOrder {entries : BlockSet} :
    b ∈ entryOrder roots entries ↔ b ∈ roots ∨ b ∈ entries := by
  simp only [entryOrder, List.mem_append, List.mem_filter, Bool.not_eq_true',
    List.contains_eq_mem, decide_eq_false_iff_not, ← mem_iff]
  by_cases hb : b ∈ roots <;> simp [hb]

/-! ## Enough entries -/

def Settled (g : Graph) (roots : List BlockId) (entries : BlockSet) : Prop :=
  ∀ b ∈ boundary g (claimAll g (entryOrder roots entries)), b ∈ entries

/-- The rounds end with settled entries: each round but the last has one entry more, and there are
no more entries than blocks. -/
theorem exists_settled (hg : g.IsClosed) (roots : List BlockId) (rounds : Nat) {entries : BlockSet}
    (hentries : ∀ e ∈ entries, e < g.size) (hrounds : g.size ≤ rounds + entries.size) :
    ∃ more : BlockSet, (∀ e ∈ entries, e ∈ more) ∧ (∀ e ∈ more, e < g.size) ∧
      (settle g roots rounds entries).1 = claimAll g (entryOrder roots more) ∧
      Settled g roots more := by
  induction rounds generalizing entries with
  | zero =>
    refine ⟨entries, fun _ h => h, hentries, rfl, fun b hb => ?_⟩
    exact mem_of_le_size hentries (by omega) (lt_size_of_mem_boundary hg hb)
  | succ rounds ih =>
    rw [settle]
    set claims := claimAll g (entryOrder roots entries) with hclaims
    set promoted := ofList ((boundary g claims).filter fun b => !entries.contains b)
      with hpromoted
    have hmem : ∀ b, b ∈ promoted ↔ b ∈ boundary g claims ∧ b ∉ entries := by
      intro b
      simp [hpromoted, contains]
    simp only
    by_cases hempty : promoted.isEmpty = true
    · rw [if_pos hempty]
      refine ⟨entries, fun _ h => h, hentries, rfl, fun b hb => ?_⟩
      by_contra hnew
      have hb' : b ∈ promoted.toList := (hmem b).2 ⟨hb, hnew⟩
      rw [List.isEmpty_iff.1 hempty] at hb'
      exact absurd hb' List.not_mem_nil
    · rw [if_neg hempty]
      obtain ⟨b, hb⟩ :=
        List.exists_mem_of_ne_nil promoted.toList (by simpa [isEmpty] using hempty)
      have hgrown : entries.size < (entries.union promoted).size :=
        size_lt_size (fun _ hc => mem_union.2 (.inl hc))
          (mem_union.2 (.inr hb)) ((hmem b).1 hb).2
      have hlt : ∀ e ∈ entries.union promoted, e < g.size := by
        intro e he
        rcases mem_union.1 he with he | he
        · exact hentries e he
        · exact lt_size_of_mem_boundary hg ((hmem e).1 he).1
      obtain ⟨more, hsub, hmore, hsettle, hsettled⟩ := ih hlt (by omega)
      exact ⟨more, fun e he => hsub e (mem_union.2 (.inl he)), hmore, hsettle, hsettled⟩

variable {entries : BlockSet} (h : Settled g roots entries)
  (ht : t ∈ claimAll g (entryOrder roots entries)) (hb : b ∈ t.blocks)

include h ht hb

theorem Settled.exits {s : BlockId} (hs : s ∈ g.successors b) :
    s ∈ t.blocks ∨ s ∈ entryOrder roots entries := by
  rcases bounded_claimAll g (entryOrder roots entries) t ht b hb s hs with hin | hentry | hother
  · exact .inl hin
  · exact .inr hentry
  · by_cases hin : s ∈ t.blocks
    · exact .inl hin
    · have hboundary := mem_boundary.2 ⟨t, ht, b, hb, .inr ⟨hs, hin, hother⟩⟩
      exact .inr (mem_entryOrder.2 (.inr (h s hboundary)))

theorem Settled.calls {call : Nat × BlockId} (hcall : call ∈ (g.block b).calls) :
    call.2 ∈ entryOrder roots entries :=
  mem_entryOrder.2 (.inr (h _ (mem_boundary.2 ⟨t, ht, b, hb, .inl (List.mem_map_of_mem hcall)⟩)))

end Territory

namespace Routines

variable {g : Graph} {roots : List BlockId} {rs : Routines} {r : Routine} {b : BlockId} {n : Nat}

/-! ## From claims to routines -/

/-- The blocks that a routine can run from its entry without leaving. -/
def Reaches (g : Graph) (r : Routine) (b : BlockId) : Prop :=
  WayTo (g.successorsIn r.blocks) [] r.entry b

/-- Routines that have every block of the graph among them, and lead only to their own blocks
and to entries. -/
structure Closed (g : Graph) (rs : List Routine) : Prop where
  covers : ∀ b < g.size, ∃ r ∈ rs, b ∈ r.blocks
  bounded : ∀ r ∈ rs, ∀ b ∈ r.blocks, b < g.size
  exits : ∀ r ∈ rs, ∀ b, Reaches g r b → ∀ s ∈ g.successors b,
    s ∈ r.blocks ∨ ∃ q ∈ rs, q.entry = s
  calls : ∀ r ∈ rs, ∀ b, Reaches g r b → ∀ call ∈ (g.block b).calls, ∃ q ∈ rs, q.entry = call.2

theorem exists_fallback {entries : List BlockId} (h : entries ≠ []) (b : BlockId) :
    ∃ e ∈ entries, fallback entries b = some e := by
  unfold fallback
  cases hmax : (entries.filter (· ≤ b)).max? with
  | some e => exact ⟨e, (List.mem_filter.1 (List.max?_mem hmax)).1, rfl⟩
  | none => exact ⟨entries.head h, List.head_mem h, List.head?_eq_some_head h⟩

/-- A routine has what its entry claims, and what nobody claims and goes to that entry. -/
def Holds (g : Graph) (claims : List Territory) (t : Territory) (r : Routine) : Prop :=
  r.entry = t.entry ∧ ∀ b, b ∈ r.blocks ↔ b ∈ t.blocks ∨
    (b < g.size ∧ (∀ u ∈ claims, b ∉ u.blocks)) ∧
      fallback (claims.map (·.entry)) b = some t.entry

theorem exists_holds_partition (g : Graph) (roots : List BlockId) :
    let claims := (settle g roots.eraseDups g.size (ofList roots.eraseDups)).1
    ∃ routine : Territory → Routine, (partition g roots).1.all = claims.map routine ∧
      ∀ t, Holds g claims t (routine t) := by
  refine ⟨_, rfl, fun t => ⟨rfl, fun b => ?_⟩⟩
  simp only [mem_foldl_insert, List.mem_filter, decide_eq_true_eq, Graph.ids,
    List.mem_range, Bool.not_eq_true', List.any_eq_false, contains_iff]
  exact or_comm

theorem Reaches.mem_claim {entries : BlockSet} {claims : List Territory}
    (hclaims : claims = claimAll g (entryOrder roots entries))
    (hsettled : Territory.Settled g roots entries)
    (hsep : Territory.Separate (entryOrder roots entries) claims)
    (hentries : claims.map (·.entry) = entryOrder roots entries)
    (ht : t ∈ claims) (hr : Holds g claims t r) (h : Reaches g r b) : b ∈ t.blocks := by
  refine WayTo.mem_of_closed (s := (· ∈ t.blocks)) h ?_ ?_
  · rw [hr.1]
    exact hsep.entry_mem t ht
  · intro x hx y hy _
    obtain ⟨hexit, hin⟩ := Graph.mem_successorsIn.1 hy
    rcases (hr.2 y).1 hin with hy | ⟨⟨-, hfree⟩, -⟩
    · exact hy
    · rw [hclaims] at ht
      rcases hsettled.exits ht hx hexit with hy | hentry
      · exact hy
      · rw [← hentries] at hentry
        obtain ⟨u, hu, rfl⟩ := List.mem_map.1 hentry
        exact absurd (hsep.entry_mem u hu) (hfree u hu)

theorem closed_partition (hg : g.IsClosed) (hroots : roots ≠ []) (hlt : ∀ e ∈ roots, e < g.size) :
    Closed g (partition g roots).1.all := by
  have hrootsLt : ∀ e ∈ ofList roots.eraseDups, e < g.size := by
    intro e he
    rw [mem_ofList, List.mem_eraseDups] at he
    exact hlt e he
  obtain ⟨more, -, hmoreLt, hclaims, hsettled⟩ :=
    exists_settled hg roots.eraseDups g.size hrootsLt (by omega)
  obtain ⟨hsep, hentries⟩ := claimAll_spec (g := g)
    (nodup_entryOrder (nodup_eraseDups roots) more)
  obtain ⟨routine, hall, hholds⟩ := exists_holds_partition g roots
  rw [← hclaims] at hsep hentries
  rw [hall]
  generalize (settle g roots.eraseDups g.size (ofList roots.eraseDups)).1 =
    claims
    at hclaims hsep hentries hholds ⊢
  -- Every entry is the entry of a routine.
  have hroutine : ∀ e ∈ entryOrder roots.eraseDups more,
      ∃ q ∈ claims.map routine, q.entry = e := by
    intro e he
    rw [← hentries] at he
    obtain ⟨u, hu, rfl⟩ := List.mem_map.1 he
    exact ⟨routine u, List.mem_map_of_mem hu, (hholds u).1⟩
  refine ⟨?_, ?_, ?_, ?_⟩
  · intro b hb
    by_cases hclaimed : ∃ t ∈ claims, b ∈ t.blocks
    · obtain ⟨t, ht, hbt⟩ := hclaimed
      exact ⟨routine t, List.mem_map_of_mem ht, ((hholds t).2 b).2 (.inl hbt)⟩
    · have hne : claims.map (·.entry) ≠ [] := by
        obtain ⟨root, hroot⟩ := List.exists_mem_of_ne_nil roots hroots
        rw [hentries]
        exact List.ne_nil_of_mem
          (mem_entryOrder.2 (.inl (List.mem_eraseDups.2 hroot)))
      obtain ⟨e, he, hfallback⟩ := exists_fallback hne b
      obtain ⟨t, ht, rfl⟩ := List.mem_map.1 he
      have hfree : ∀ u ∈ claims, b ∉ u.blocks := fun u hu hbu => hclaimed ⟨u, hu, hbu⟩
      exact ⟨routine t, List.mem_map_of_mem ht, ((hholds t).2 b).2 (.inr ⟨⟨hb, hfree⟩, hfallback⟩)⟩
  · intro r hr b hb
    obtain ⟨t, ht, rfl⟩ := List.mem_map.1 hr
    rcases ((hholds t).2 b).1 hb with hclaimed | ⟨⟨hlt, -⟩, -⟩
    · rw [hclaims] at ht
      refine lt_size_of_mem_claimAll hg ?_ t ht b hclaimed
      intro e he
      rcases mem_entryOrder.1 he with he | he
      · exact hlt e (List.mem_eraseDups.1 he)
      · exact hmoreLt e he
    · exact hlt
  · intro r hr b hb s hs
    obtain ⟨t, ht, rfl⟩ := List.mem_map.1 hr
    have hbt := hb.mem_claim hclaims hsettled hsep hentries ht (hholds t)
    rw [hclaims] at ht
    rcases hsettled.exits ht hbt hs with hin | hentry
    · exact .inl (((hholds t).2 s).2 (.inl hin))
    · exact .inr (hroutine s hentry)
  · intro r hr b hb call hcall
    obtain ⟨t, ht, rfl⟩ := List.mem_map.1 hr
    have hbt := hb.mem_claim hclaims hsettled hsep hentries ht (hholds t)
    rw [hclaims] at ht
    exact hroutine call.2 (hsettled.calls ht hbt hcall)

theorem head?_partition (g : Graph) (hroots : roots ≠ []) :
    (partition g roots).1.all.head?.map (·.entry) = roots.head? := by
  obtain ⟨routine, hall, hholds⟩ := exists_holds_partition g roots
  obtain ⟨more, hmore⟩ := settle_eq_claimAll g roots.eraseDups g.size
    (ofList roots.eraseDups)
  have hentries := (claimAll_spec (g := g)
    (nodup_entryOrder (nodup_eraseDups roots) more)).2
  rw [← hmore] at hentries
  calc (partition g roots).1.all.head?.map (·.entry)
      = ((partition g roots).1.all.map (·.entry)).head? := by rw [List.head?_map]
    _ = (entryOrder roots.eraseDups more).head? := by
        rw [hall, List.map_map, ← hentries]
        congr 1
        exact List.map_congr_left fun t _ => (hholds t).1
    _ = roots.head? := by
        cases roots with
        | nil => exact absurd rfl hroots
        | cons root rest => simp [entryOrder, List.eraseDups_cons]

/-! ## Solving for the interfaces keeps the division -/

theorem exists_of_map_eq {l l' : List Routine}
    (h : (l.map fun r => (r.entry, r.blocks)) = l'.map fun r => (r.entry, r.blocks)) (hr : r ∈ l) :
    ∃ q ∈ l', q.entry = r.entry ∧ q.blocks = r.blocks := by
  have hmem : (r.entry, r.blocks) ∈ l.map fun r => (r.entry, r.blocks) := List.mem_map_of_mem hr
  rw [h] at hmem
  obtain ⟨q, hq, heq⟩ := List.mem_map.1 hmem
  exact ⟨q, hq, congrArg Prod.fst heq, congrArg Prod.snd heq⟩

theorem closed_ofGraph (hg : g.IsClosed) (hroots : roots ≠ []) (hlt : ∀ e ∈ roots, e < g.size) :
    Closed g (ofGraph g roots).1.all := by
  have h := closed_partition hg hroots hlt
  have hsame := map_all_ofGraph (fun r => (r.entry, r.blocks)) (fun _ _ => rfl) g roots
  have hentry : ∀ q ∈ (partition g roots).1.all,
      ∃ q' ∈ (ofGraph g roots).1.all, q'.entry = q.entry := by
    intro q hq
    obtain ⟨q', hq', he, -⟩ := exists_of_map_eq hsame.symm hq
    exact ⟨q', hq', he⟩
  refine ⟨?_, ?_, ?_, ?_⟩
  · intro b hb
    obtain ⟨r, hr, hbr⟩ := h.covers b hb
    obtain ⟨q, hq, -, hblocks⟩ := exists_of_map_eq hsame.symm hr
    exact ⟨q, hq, hblocks ▸ hbr⟩
  · intro r hr b hb
    obtain ⟨q, hq, -, hblocks⟩ := exists_of_map_eq hsame hr
    exact h.bounded q hq b (hblocks ▸ hb)
  · intro r hr b hb s hs
    obtain ⟨q, hq, he, hblocks⟩ := exists_of_map_eq hsame hr
    rw [Reaches, ← he, ← hblocks] at hb
    rw [← hblocks]
    rcases h.exits q hq b hb s hs with hin | ⟨u, hu, rfl⟩
    · exact .inl hin
    · exact .inr (hentry u hu)
  · intro r hr b hb call hcall
    obtain ⟨q, hq, he, hblocks⟩ := exists_of_map_eq hsame hr
    rw [Reaches, ← he, ← hblocks] at hb
    obtain ⟨u, hu, hcallee⟩ := h.calls q hq b hb call hcall
    rw [← hcallee]
    exact hentry u hu

theorem head?_ofGraph (g : Graph) (hroots : roots ≠ []) :
    (ofGraph g roots).1.all.head?.map (·.entry) = roots.head? := by
  rw [← List.head?_map, map_all_ofGraph _ fun _ _ => rfl, List.head?_map]
  exact head?_partition g hroots

theorem findIdx?_eq_some_iff_of_pairwise {α : Type} {p : α → Bool} {l : List α}
    (h : l.Pairwise fun a b => p a = true → p b = false) :
    l.findIdx? p = some n ↔ ∃ a, l[n]? = some a ∧ p a = true := by
  rw [List.findIdx?_eq_some_iff_getElem]
  constructor
  · rintro ⟨hn, hp, -⟩
    exact ⟨l[n], List.getElem?_eq_getElem hn, hp⟩
  · rintro ⟨a, ha, hp⟩
    obtain ⟨hn, rfl⟩ := List.getElem?_eq_some_iff.1 ha
    refine ⟨hn, hp, fun m hm hpm => ?_⟩
    have hnot := List.pairwise_iff_getElem.1 h m n (by omega) hn hm hpm
    rw [hp] at hnot
    exact Bool.noConfusion hnot

theorem owner?_eq_some_iff (h : Separate rs.all) :
    rs.owner? b = some n ↔ ∃ r, rs.all[n]? = some r ∧ b ∈ r.blocks := by
  have hone : rs.all.Pairwise fun r q => r.blocks.contains b = true →
      q.blocks.contains b = false := by
    refine h.disjoint.imp fun hdisjoint hb => ?_
    have hnot := hdisjoint b (contains_iff.1 hb)
    rw [← contains_iff] at hnot
    exact Bool.eq_false_iff.2 hnot
  rw [owner?, findIdx?_eq_some_iff_of_pairwise hone]
  simp only [contains_iff]

theorem numberAt?_eq_some_iff (h : Separate rs.all) {entry : BlockId} :
    rs.numberAt? entry = some n ↔ ∃ r, rs.all[n]? = some r ∧ r.entry = entry := by
  have hone : rs.all.Pairwise fun r q => decide (r.entry = entry) = true →
      decide (q.entry = entry) = false := by
    refine (List.pairwise_map.1 h.entries).imp fun hne heq => ?_
    rw [decide_eq_true_eq] at heq
    exact decide_eq_false fun heq' => hne (heq.trans heq'.symm)
  rw [numberAt?, findIdx?_eq_some_iff_of_pairwise hone]
  simp only [decide_eq_true_eq]

theorem handsOver_of_owner? {t : BlockId} {m : Nat} (howner : rs.owner? b = some m)
    (hnumber : rs.numberAt? t = some n) (hne : m ≠ n) : rs.handsOver b t = true := by
  rw [handsOver, takesOver?, howner, hnumber]
  simp [hne]

/-- Routines divide a graph among them: every block has one owner, and control goes from one routine
to another only at entries. -/
structure Divides (rs : Routines) (g : Graph) (roots : List BlockId) : Prop where
  owner : ∀ b < g.size, ∃ n, rs.owner? b = some n ∧
    ∀ m r, rs.all[m]? = some r → (b ∈ r.blocks ↔ m = n)
  inside : ∀ r ∈ rs.all, ∀ b ∈ r.blocks, b < g.size
  entry : ∀ n r, rs.all[n]? = some r → rs.owner? r.entry = some n
  first : rs.all.head?.map (·.entry) = roots.head?
  calls : ∀ r ∈ rs.all, ∀ b, Reaches g r b → ∀ call ∈ (g.block b).calls,
    ∃ q ∈ rs.all, q.entry = call.2
  exits : ∀ r ∈ rs.all, ∀ b, Reaches g r b → ∀ t ∈ g.successors b,
    t ∈ r.blocks ∨ (∃ q ∈ rs.all, q.entry = t ∧ q.entry ≠ r.entry) ∧ rs.handsOver b t = true

theorem divides_of_closed (hsep : Separate rs.all) (hclosed : Closed g rs.all)
    (hfirst : rs.all.head?.map (·.entry) = roots.head?) : Divides rs g roots := by
  -- A block is in the routine that owns it and in no other one.
  have howns : ∀ {b n r}, rs.all[n]? = some r → b ∈ r.blocks → rs.owner? b = some n :=
    fun hr hb => (owner?_eq_some_iff hsep).2 ⟨_, hr, hb⟩
  refine ⟨?_, hclosed.bounded, ?_, hfirst, hclosed.calls, ?_⟩
  · intro b hb
    obtain ⟨r, hr, hbr⟩ := hclosed.covers b hb
    obtain ⟨n, hn⟩ := List.mem_iff_getElem?.1 hr
    refine ⟨n, howns hn hbr, fun m q hm => ⟨fun hbq => ?_, fun heq => ?_⟩⟩
    · exact Option.some.inj ((howns hm hbq).symm.trans (howns hn hbr))
    · rw [heq, hn] at hm
      rw [← Option.some.inj hm]
      exact hbr
  · intro n r hr
    exact howns hr (hsep.entry_mem r (List.mem_of_getElem? hr))
  · intro r hr b hb t ht
    by_cases hin : t ∈ r.blocks
    · exact .inl hin
    · obtain ⟨q, hq, rfl⟩ := (hclosed.exits r hr b hb t ht).resolve_left hin
      have hother : q.entry ≠ r.entry := fun heq => hin (heq ▸ hsep.entry_mem r hr)
      refine .inr ⟨⟨q, hq, rfl, hother⟩, ?_⟩
      obtain ⟨m, hm⟩ := List.mem_iff_getElem?.1 hr
      obtain ⟨n, hn⟩ := List.mem_iff_getElem?.1 hq
      have hbr : b ∈ r.blocks := WayTo.mem_members hb (hsep.entry_mem r hr)
      refine handsOver_of_owner? (howns hm hbr) ((numberAt?_eq_some_iff hsep).2 ⟨q, hn, rfl⟩) ?_
      intro hmn
      rw [hmn, hn] at hm
      exact hother (congrArg Routine.entry (Option.some.inj hm))

/-- The routines found from some roots divide the graph. -/
theorem divides_ofGraph (g : Graph) (roots : List BlockId) (hg : g.IsClosed) (hroots : roots ≠ [])
    (hlt : ∀ e ∈ roots, e < g.size) : Divides (ofGraph g roots).1 g roots :=
  divides_of_closed (separate_ofGraph g roots) (closed_ofGraph hg hroots hlt)
    (head?_ofGraph g hroots)

/-- A caller of two routines that end in the same code, and a block that nothing leads to. -/
def sharedTail : Graph where
  blocks := #[
    { label := some "Start", offset := 0, code := [⟨.jsr, .direct (.symbol "Load") .absolute⟩,
        ⟨.jsr, .direct (.symbol "Clear") .absolute⟩, ⟨.rts, .implied⟩], calls := [(0, 1), (1, 2)] },
    { label := some "Load", offset := 7, code := [⟨.jmp, .direct (.symbol "Store") .absolute⟩],
      branch := some 3 },
    { label := some "Clear", offset := 10, code := [⟨.tay, .implied⟩], fallThrough := some 3 },
    { label := some "Store", offset := 11, code := [⟨.rts, .implied⟩] },
    { label := none, offset := 12, code := [⟨.tax, .implied⟩], fallThrough := some 0 }]
  entry := some 0

/-- The shared code becomes a routine of its own, to which the last block goes too. -/
theorem divides_sharedTail :
    (sharedTail.IsClosed ∧ ([0] : List BlockId) ≠ [] ∧ ∀ e ∈ ([0] : List BlockId),
      e < sharedTail.size) ∧ Divides (ofGraph sharedTail [0]).1 sharedTail [0] ∧
      (ofGraph sharedTail [0]).1.all.map (fun r => (r.entry, r.blocks.toList)) =
        [(0, [0]), (1, [1]), (2, [2]), (3, [3, 4])] :=
  ⟨by decide, divides_ofGraph sharedTail [0] (by decide) (by decide) (by decide), by decide +kernel⟩

end Routines

end Lift6502
