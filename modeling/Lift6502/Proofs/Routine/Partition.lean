import Lift6502.Proofs.Flow.Walk
import Lift6502.Routine.Interface
import Lift6502.Proofs.Flow.Sweeps

/-!
# Routines share no blocks

A routine contains its entry, and each block belongs to one routine at most.
-/

namespace Lift6502

open BlockSet

namespace Territory

variable {g : Graph} {entries : List BlockId} {claims : List Territory}

structure Separate (entries : List BlockId) (claims : List Territory) : Prop where
  entry_mem : ∀ t ∈ claims, t.entry ∈ t.blocks
  others : ∀ t ∈ claims, ∀ e ∈ entries, e ∈ t.blocks → e = t.entry
  disjoint : claims.Pairwise fun t u => ∀ b ∈ t.blocks, b ∉ u.blocks

theorem Separate.nil : Separate entries [] := ⟨by simp, by simp, .nil⟩

theorem mem_taken {b : BlockId} :
    b ∈ claims.flatMap (fun t => t.blocks.toList) ↔ ∃ t ∈ claims, b ∈ t.blocks :=
  List.mem_flatMap

theorem Separate.claim {entry : BlockId} (h : Separate entries claims)
    (hentry : entry ∈ entries) (hnew : ∀ t ∈ claims, t.entry ≠ entry) :
    Separate entries (claims ++
      [⟨entry, ofList (reachableAvoiding g.size g.successors entry
      (claims.flatMap (fun t => t.blocks.toList) ++ entries.filter (· != entry)))⟩]) := by
  set avoided := claims.flatMap (fun t => t.blocks.toList) ++ entries.filter (· != entry)
    with havoided
  have hmem : ∀ b, b ∈ ofList (reachableAvoiding g.size g.successors entry avoided) ↔
      WayTo g.successors avoided entry b := fun b =>
    mem_ofList.trans
      (mem_reachableAvoiding (fun _ => Graph.lt_size_of_successors_ne_nil) entry avoided b)
  have hfree : entry ∉ avoided := by
    rw [havoided, List.mem_append, mem_taken]
    rintro (⟨t, ht, hb⟩ | hother)
    · exact hnew t ht (h.others t ht entry hentry hb).symm
    · simp at hother
  refine ⟨?_, ?_, ?_⟩
  · intro t ht
    rcases List.mem_append.1 ht with ht | ht
    · exact h.entry_mem t ht
    · rw [List.mem_singleton.1 ht]
      exact (hmem entry).2 (.refl hfree)
  · intro t ht e he hb
    rcases List.mem_append.1 ht with ht | ht
    · exact h.others t ht e he hb
    · rw [List.mem_singleton.1 ht] at hb ⊢
      by_contra hne
      apply ((hmem e).1 hb).end_free
      rw [havoided]
      exact List.mem_append_right _ (List.mem_filter.2 ⟨he, by simpa using hne⟩)
  · refine List.pairwise_append.2 ⟨h.disjoint, List.pairwise_singleton _ _, ?_⟩
    intro t ht u hu b hb hbu
    rw [List.mem_singleton.1 hu] at hbu
    apply ((hmem b).1 hbu).end_free
    rw [havoided]
    exact List.mem_append_left _ (mem_taken.2 ⟨t, ht, hb⟩)

theorem claimAll_spec (hnodup : entries.Nodup) :
    Separate entries (claimAll g entries) ∧ (claimAll g entries).map (·.entry) = entries := by
  -- The fold has claimed for the entries `done`.
  have hfold : ∀ (rest done : List BlockId) (claims : List Territory), done ++ rest = entries →
      Separate entries claims → claims.map (·.entry) = done →
      let result := rest.foldl (fun claims entry =>
        let taken := claims.flatMap fun t => t.blocks.toList
        let others := entries.filter (· != entry)
        let blocks := ofList
          (reachableAvoiding g.size g.successors entry (taken ++ others))
        claims ++ [⟨entry, blocks⟩]) claims
      Separate entries result ∧ result.map (·.entry) = entries := by
    intro rest
    induction rest with
    | nil =>
      intro done claims hdone hsep hmap
      exact ⟨hsep, by rw [List.foldl_nil, hmap, ← hdone, List.append_nil]⟩
    | cons entry rest ih =>
      intro done claims hdone hsep hmap
      have hentry : entry ∈ entries := by
        rw [← hdone]
        exact List.mem_append_right _ List.mem_cons_self
      have hnew : ∀ t ∈ claims, t.entry ≠ entry := by
        intro t ht heq
        have hin : entry ∈ done := by
          rw [← hmap, ← heq]
          exact List.mem_map_of_mem ht
        rw [← hdone, List.nodup_append] at hnodup
        exact hnodup.2.2 entry hin entry List.mem_cons_self rfl
      refine ih (done ++ [entry]) _ (by rw [← hdone, List.append_assoc]; rfl)
        (hsep.claim hentry hnew) ?_
      rw [List.map_append, hmap]
      rfl
  exact hfold entries [] [] rfl .nil rfl

theorem nodup_entryOrder {roots : List BlockId} (hroots : roots.Nodup) (entries : BlockSet) :
    (entryOrder roots entries).Nodup := by
  refine List.nodup_append.2 ⟨hroots, ?_, ?_⟩
  · exact (entries.ascending.imp fun h => Nat.ne_of_lt h).filter _
  · rintro a ha b hb rfl
    simp only [List.mem_filter, Bool.not_eq_true', List.contains_eq_mem] at hb
    exact absurd ha (by simpa using hb.2)

theorem settle_eq_claimAll (g : Graph) (roots : List BlockId) (rounds : Nat) (entries : BlockSet) :
    ∃ more, (settle g roots rounds entries).1 = claimAll g (entryOrder roots more) := by
  induction rounds generalizing entries with
  | zero => exact ⟨entries, rfl⟩
  | succ rounds ih =>
    rw [settle]
    simp only
    split
    · exact ⟨entries, rfl⟩
    · exact ih _

end Territory

namespace Routines

structure Separate (rs : List Routine) : Prop where
  entry_mem : ∀ r ∈ rs, r.entry ∈ r.blocks
  entries : (rs.map (·.entry)).Nodup
  disjoint : rs.Pairwise fun r q => ∀ b ∈ r.blocks, b ∉ q.blocks

theorem nodup_eraseDups (l : List BlockId) : l.eraseDups.Nodup := by
  generalize hn : l.length = n
  induction n using Nat.strong_induction_on generalizing l with
  | _ n ih =>
    cases l with
    | nil => exact List.nodup_nil
    | cons b rest =>
      rw [List.eraseDups_cons]
      have hlength : (rest.filter fun c => !c == b).length < n := by
        have hle := List.length_filter_le (fun c => !c == b) rest
        simp only [List.length_cons] at hn
        omega
      refine List.nodup_cons.2 ⟨fun hmem => ?_, ih _ hlength _ rfl⟩
      have hb := (List.mem_filter.1 (List.mem_eraseDups.1 hmem)).2
      simp at hb

theorem separate_partition (g : Graph) (roots : List BlockId) :
    Separate (partition g roots).1.all := by
  obtain ⟨more, hmore⟩ := Territory.settle_eq_claimAll g roots.eraseDups g.size
    (ofList roots.eraseDups)
  have hnodup := Territory.nodup_entryOrder (nodup_eraseDups roots) more
  obtain ⟨hsep, hentries⟩ := Territory.claimAll_spec (g := g) hnodup
  rw [← hmore] at hsep hentries
  simp only [partition]
  generalize (Territory.settle g roots.eraseDups g.size (ofList roots.eraseDups)).1 =
    claims
    at hsep hentries ⊢
  have hdistinct : claims.Pairwise fun t u => t.entry ≠ u.entry := by
    rw [← hentries] at hnodup
    exact List.pairwise_map.1 hnodup
  refine ⟨?_, ?_, ?_⟩
  · intro r hr
    obtain ⟨t, ht, rfl⟩ := List.mem_map.1 hr
    exact mem_foldl_insert.2 (.inr (hsep.entry_mem t ht))
  · rw [List.map_map]
    exact List.pairwise_map.2 hdistinct
  · refine List.pairwise_map.2 ?_
    refine List.Pairwise.imp_of_mem ?_ (hsep.disjoint.and hdistinct)
    rintro t u ht hu ⟨hdisjoint, hne⟩ b hb hbu
    simp only [mem_foldl_insert, List.mem_filter, decide_eq_true_eq] at hb hbu
    -- A block that is attached to a claim is in no other one.
    have hunclaimed : ∀ v ∈ claims,
        (b ∈ g.ids ∧ (!claims.any fun t => t.blocks.contains b) = true) → b ∉ v.blocks := by
      intro v hv hfree hbv
      have hany : claims.any (fun t => t.blocks.contains b) = true :=
        List.any_eq_true.2 ⟨v, hv, contains_iff.2 hbv⟩
      simp [hany] at hfree
    rcases hb with ⟨hfree, hto⟩ | hb <;> rcases hbu with ⟨hfree', hto'⟩ | hbu
    · rw [hto] at hto'
      exact hne (Option.some.inj hto')
    · exact hunclaimed u hu hfree hbu
    · exact hunclaimed t ht hfree' hb
    · exact hdisjoint b hb hbu

end Routines

namespace Interface

variable {flows : List RoutineFlow} {interfaces : List Interface}

theorem length_solveInputs (h : interfaces.length = flows.length) :
    (solveInputs flows interfaces).length = flows.length := by
  refine iterate_invariant (p := fun l : List Interface => l.length = flows.length) ?_ _
    (by simpa using h)
  intro l _
  simp [inputRound]

theorem length_solve (flows : List RoutineFlow) : (solve flows).length = flows.length := by
  rw [solve]
  refine iterate_invariant (p := fun l : List Interface => l.length = flows.length) ?_ _ ?_
  · intro l _
    exact length_solveInputs (by simp [growOutputs])
  · refine length_solveInputs
      (iterate_invariant (p := fun l : List Interface => l.length = flows.length) ?_ _ ?_)
    · intro l _
      simp [clobberRound]
    · simp

end Interface

namespace Routines

theorem map_all_ofGraph {α : Type} (f : Routine → α) (hf : ∀ r i, f { r with interface := i } = f r)
    (g : Graph) (roots : List BlockId) :
    (ofGraph g roots).1.all.map f = (partition g roots).1.all.map f := by
  simp only [ofGraph, List.map_map]
  have hcomp : (f ∘ fun x : Routine × Interface => { x.1 with interface := x.2 }) =
      f ∘ Prod.fst := by
    funext x
    exact hf x.1 x.2
  rw [hcomp, ← List.map_map, List.map_fst_zip]
  rw [Interface.length_solve, List.length_map]

theorem separate_ofGraph (g : Graph) (roots : List BlockId) : Separate (ofGraph g roots).1.all := by
  have h := separate_partition g roots
  refine ⟨?_, ?_, ?_⟩
  · have hmem : ∀ b ∈ (ofGraph g roots).1.all.map (fun r => decide (r.entry ∈ r.blocks)),
        b = true := by
      rw [map_all_ofGraph _ (fun _ _ => rfl)]
      simpa using h.entry_mem
    simpa using hmem
  · rw [map_all_ofGraph _ (fun _ _ => rfl)]
    exact h.entries
  · have hdisjoint : ((partition g roots).1.all.map (·.blocks)).Pairwise
        fun s t => ∀ b ∈ s, b ∉ t := List.pairwise_map.2 h.disjoint
    rw [← map_all_ofGraph _ (fun _ _ => rfl)] at hdisjoint
    exact List.pairwise_map.1 hdisjoint

end Routines

end Lift6502
