import Lift6502.Code.Statement

/-!
# Traversals of statements

An address says where a statement stands inside another one. Rebuilding a statement changes what
stands at its addresses, each address once and those inside it before.
-/

namespace Lift6502

namespace Statement

theorem listDescendants_append (l k : List Statement) :
    listDescendants (l ++ k) = listDescendants l ++ listDescendants k := by
  induction l with
  | nil => rfl
  | cons s rest ih => rw [List.cons_append, listDescendants, listDescendants, ih, List.append_assoc]

theorem listDescendants_eq_flatMap (l : List Statement) :
    listDescendants l = l.flatMap descendants := by
  induction l with
  | nil => rfl
  | cons s rest ih => rw [listDescendants, ih, List.flatMap_cons]

theorem descendants_eq (s : Statement) : s.descendants = s :: listDescendants s.children := by
  cases s with
  | cond c t e => rw [descendants, children, listDescendants_append]
  | loop => rw [descendants, children]
  | _ => rfl

theorem listCount_append (l k : List Statement) :
    listCount (l ++ k) = listCount l + listCount k := by
  induction l with
  | nil => rw [List.nil_append, listCount, Nat.zero_add]
  | cons s rest ih => rw [List.cons_append, listCount, listCount, ih, Nat.add_assoc]

theorem count_eq (s : Statement) : s.count = 1 + listCount s.children := by
  cases s with
  | cond c t e => rw [count, children, listCount_append, Nat.add_assoc]
  | loop => rw [count, children]
  | _ => rfl

variable {l : List Statement} {s : Statement}

theorem count_le_of_mem (h : s ∈ l) : s.count ≤ listCount l := by
  induction l with
  | nil => cases h
  | cons s' rest ih =>
    rw [listCount]
    rcases List.mem_cons.1 h with rfl | h
    · exact Nat.le_add_right _ _
    · exact Nat.le_trans (ih h) (Nat.le_add_left _ _)

theorem induction_children {P : Statement → Prop} (h : ∀ s, (∀ c ∈ s.children, P c) → P s)
    (s : Statement) : P s := by
  induction hn : s.count using Nat.strongRecOn generalizing s with
  | _ n ih =>
    refine h s fun c hc => ih c.count ?_ c rfl
    have hle := count_le_of_mem hc
    have hcount := count_eq s
    omega

/-! ## The walk with a stack -/

theorem pushAll_eq (stack l : List Statement) : pushAll stack l = l ++ stack := by
  rw [pushAll, List.foldl_reverse, List.foldr_cons_eq_append']

theorem next?_cons (s : Statement) (stack : List Statement) :
    next? (s :: stack) = some (s, s.children ++ stack) := by
  cases s with
  | cond c t e => rw [next?, pushAll_eq, pushAll_eq, children, List.append_assoc]
  | loop => rw [next?, pushAll_eq, children]
  | _ => rfl

theorem walk_eq (fuel : Nat) (stack : List Statement) (h : listCount stack ≤ fuel) :
    walk fuel stack = listDescendants stack := by
  -- The stack holds the statements whose descendants are still to come, in the order of the visits.
  induction fuel generalizing stack with
  | zero =>
    cases stack with
    | nil => rfl
    | cons s rest =>
      rw [listCount, count_eq] at h
      omega
  | succ fuel ih =>
    cases stack with
    | nil => rfl
    | cons s rest =>
      rw [listCount, count_eq] at h
      have hrest := ih (s.children ++ rest) (by rw [listCount_append]; omega)
      simp only [walk, next?_cons, hrest]
      rw [listDescendants_append, listDescendants, descendants_eq s, List.cons_append]

theorem walkAll_eq (l : List Statement) : walkAll l = l.flatMap descendants := by
  rw [walkAll, pushAll_eq, List.append_nil, walk_eq _ l (Nat.le_refl _), listDescendants_eq_flatMap]

/-- Where a statement stands inside another: the child to take at each level. -/
abbrev Address := List Nat

def inside? : Statement → Address → Option Statement
  | s, [] => some s
  | s, i :: p => s.children[i]?.bind fun c => c.inside? p

/-- A statement's own address with those of the statements inside it. -/
def placed (parentsFirst : Bool) (below : List Address) : List Address :=
  if parentsFirst then [] :: below else below ++ [[]]

mutual

/-- The addresses of a statement and of all statements inside it, parents first or
children first. -/
def addresses (parentsFirst : Bool) : Statement → List Address
  | .cond _ t e =>
    placed parentsFirst (listAddresses parentsFirst 0 t ++ listAddresses parentsFirst t.length e)
  | .loop _ _ b => placed parentsFirst (listAddresses parentsFirst 0 b)
  | _ => [[]]

def listAddresses (parentsFirst : Bool) (i : Nat) : List Statement → List Address
  | [] => []
  | s :: rest => (s.addresses parentsFirst).map (i :: ·) ++ listAddresses parentsFirst (i + 1) rest

end

/-- Which of two addresses comes first: where they part, the one that takes the earlier child; of a
statement and one inside it, the one that the order names. -/
def Precedes (parentsFirst : Bool) : Address → Address → Prop
  | [], [] => False
  | [], _ :: _ => parentsFirst = true
  | _ :: _, [] => parentsFirst = false
  | i :: p, j :: q => i < j ∨ (i = j ∧ Precedes parentsFirst p q)

variable {first : Bool}

theorem listAddresses_append (i : Nat) (l k : List Statement) :
    listAddresses first i (l ++ k) = listAddresses first i l ++ listAddresses first
      (i + l.length) k := by
  induction l generalizing i with
  | nil => rfl
  | cons s rest ih =>
    rw [List.cons_append, listAddresses, listAddresses, ih, List.append_assoc, List.length_cons,
      Nat.add_right_comm, Nat.add_assoc]

theorem addresses_eq (s : Statement) :
    s.addresses first = placed first (listAddresses first 0 s.children) := by
  cases s with
  | cond c t e => rw [addresses, children, listAddresses_append, Nat.zero_add]
  | loop => rw [addresses, children]
  | _ => cases first <;> rfl

theorem exists_index {p : Address} {i : Nat} (h : p ∈ listAddresses first i l) :
    ∃ j q, p = j :: q ∧ i ≤ j := by
  induction l generalizing i with
  | nil => cases h
  | cons s rest ih =>
    rw [listAddresses, List.mem_append, List.mem_map] at h
    rcases h with ⟨q, -, rfl⟩ | h
    · exact ⟨i, q, rfl, Nat.le_refl i⟩
    · obtain ⟨j, q, rfl, hj⟩ := ih h
      exact ⟨j, q, rfl, Nat.le_of_succ_le hj⟩

theorem pairwise_listAddresses (hl : ∀ c ∈ l, (c.addresses first).Pairwise (Precedes first))
    (i : Nat) : (listAddresses first i l).Pairwise (Precedes first) := by
  induction l generalizing i with
  | nil => exact .nil
  | cons s rest ih =>
    rw [listAddresses, List.pairwise_append]
    refine ⟨?_, ih (fun c hc => hl c (List.mem_cons_of_mem _ hc)) (i + 1), fun p hp q hq => ?_⟩
    · rw [List.pairwise_map]
      exact (hl s List.mem_cons_self).imp fun h => .inr ⟨rfl, h⟩
    · obtain ⟨p, -, rfl⟩ := List.mem_map.1 hp
      obtain ⟨j, q, rfl, hj⟩ := exists_index hq
      exact .inl hj

theorem pairwise_addresses (s : Statement) : (s.addresses first).Pairwise (Precedes first) := by
  induction s using induction_children with
  | h s ih =>
    rw [addresses_eq]
    have hbelow := pairwise_listAddresses ih 0
    cases first with
    | true =>
      refine .cons (fun p hp => ?_) hbelow
      obtain ⟨j, q, rfl, -⟩ := exists_index hp
      rfl
    | false =>
      refine List.pairwise_append.2 ⟨hbelow, List.pairwise_singleton _ _, fun p hp q hq => ?_⟩
      obtain ⟨j, p, rfl, -⟩ := exists_index hp
      rw [List.mem_singleton.1 hq]
      rfl

theorem perm_listAddresses (hl : ∀ c ∈ l, (c.addresses false).Perm (c.addresses true)) (i : Nat) :
    (listAddresses false i l).Perm (listAddresses true i l) := by
  induction l generalizing i with
  | nil => exact .nil
  | cons s rest ih =>
    exact ((hl s List.mem_cons_self).map _).append
      (ih (fun c hc => hl c (List.mem_cons_of_mem _ hc)) (i + 1))

theorem perm_addresses (s : Statement) : (s.addresses false).Perm (s.addresses true) := by
  induction s using induction_children with
  | h s ih =>
    rw [addresses_eq, addresses_eq]
    exact (List.perm_append_singleton _ _).trans ((perm_listAddresses ih 0).cons _)

theorem map_inside?_listAddresses (s : Statement) (l k : List Statement) (hs : s.children = k ++ l)
    (hl : ∀ c ∈ l, (c.addresses true).map c.inside? = c.descendants.map some) :
    (listAddresses true k.length l).map s.inside? = (listDescendants l).map some := by
  induction l generalizing k with
  | nil => rfl
  | cons c rest ih =>
    have hrest := ih (k ++ [c]) (by rw [hs, List.append_assoc, List.singleton_append]) fun c' hc =>
      hl c' (List.mem_cons_of_mem _ hc)
    rw [List.length_append, List.length_singleton] at hrest
    rw [listAddresses, listDescendants, List.map_append, List.map_append, hrest,
      ← hl c List.mem_cons_self, List.map_map]
    congr 1
    refine List.map_congr_left fun p _ => ?_
    simp [inside?, hs]

theorem map_inside?_addresses (s : Statement) :
    (s.addresses true).map s.inside? = s.descendants.map some := by
  induction s using induction_children with
  | h s ih =>
    rw [addresses_eq, descendants_eq]
    exact congrArg _ (map_inside?_listAddresses s s.children [] rfl ih)

/-! ## Changes at addresses -/

def withChildren : Statement → List Statement → Statement
  | .cond c t _, l => .cond c (l.take t.length) (l.drop t.length)
  | .loop test label _, l => .loop test label l
  | s, _ => s

variable {σ : Type} (f : Statement → σ → Statement × σ)

def changeAt? : Statement × σ → Address → Option (Statement × σ)
  | (s, state), [] => some (f s state)
  | (s, state), i :: p =>
    s.children[i]?.bind fun c => (changeAt? (c, state) p).map fun r =>
      (s.withChildren (s.children.set i r.1), r.2)

theorem withChildren_children (s : Statement) : s.withChildren s.children = s := by
  cases s with
  | cond c t e => simp [withChildren, children]
  | _ => rfl

theorem children_withChildren (h : l.length = s.children.length) :
    (s.withChildren l).children = l := by
  cases s with
  | cond c t e => simp [withChildren, children]
  | loop => rfl
  | _ => exact (List.eq_nil_of_length_eq_zero h).symm

theorem withChildren_withChildren (h : l.length = s.children.length)
    (k : List Statement) : (s.withChildren l).withChildren k = s.withChildren k := by
  cases s with
  | cond c t e =>
    have hlength : (l.take t.length).length = t.length := by
      rw [List.length_take, h, children, List.length_append]
      omega
    rw [withChildren, withChildren, withChildren, hlength]
  | _ => rfl

theorem rebuildAll_append (l k : List Statement) (state : σ) : rebuildAll f (l ++ k) state =
    ((rebuildAll f l state).1 ++ (rebuildAll f k (rebuildAll f l state).2).1,
      (rebuildAll f k (rebuildAll f l state).2).2) := by
  induction l generalizing state with
  | nil => rfl
  | cons s rest ih => simp only [List.cons_append, rebuildAll, ih]

theorem length_rebuildAll (l : List Statement) (state : σ) :
    (rebuildAll f l state).1.length = l.length := by
  induction l generalizing state with
  | nil => rfl
  | cons s rest ih => simp only [rebuildAll, List.length_cons, ih]

theorem rebuild_eq (s : Statement) (state : σ) : s.rebuild f state =
    f (s.withChildren (rebuildAll f s.children state).1) (rebuildAll f s.children state).2 := by
  cases s with
  | cond c t e =>
    have hlength := length_rebuildAll f t state
    simp only [rebuild, children, rebuildAll_append, withChildren, List.take_left' hlength,
      List.drop_left' hlength]
  | _ => simp only [rebuild, children, withChildren, rebuildAll]

theorem changes_inside_child {c c' : Statement} {state state' : σ} {p : List Address} {i : Nat}
    (hc : s.children[i]? = some c) (h : p.foldlM (changeAt? f) (c, state) = some (c', state')) :
    (p.map (i :: ·)).foldlM (changeAt? f) (s, state) =
      some (s.withChildren (s.children.set i c'), state') := by
  -- Each change gives a new statement for the others, with as many children.
  induction p generalizing s c state with
  | nil =>
    cases h
    obtain ⟨hi, rfl⟩ := List.getElem?_eq_some_iff.1 hc
    rw [List.set_getElem_self, withChildren_children]
    rfl
  | cons a p ih =>
    rw [List.foldlM_cons] at h
    obtain ⟨⟨c1, state1⟩, hfirst, hrest⟩ := Option.bind_eq_some_iff.1 h
    have hlength : (s.children.set i c1).length = s.children.length := List.length_set
    have hi := (List.getElem?_eq_some_iff.1 hc).1
    have hnext := ih (s := s.withChildren (s.children.set i c1))
      (by rw [children_withChildren hlength]; exact List.getElem?_set_self hi) hrest
    rw [children_withChildren hlength, List.set_set, withChildren_withChildren hlength] at hnext
    rw [List.map_cons, List.foldlM_cons, changeAt?, hc, Option.bind_some, hfirst]
    exact hnext

/-- Changes inside the children from the index `k.length` on, one child after the other. -/
theorem changes_inside_children (s : Statement) (k l : List Statement) (state : σ)
    (hs : (k ++ l).length = s.children.length)
    (hl : ∀ c ∈ l, ∀ state, (c.addresses false).foldlM (changeAt? f) (c, state) =
      some (c.rebuild f state)) :
    (listAddresses false k.length l).foldlM (changeAt? f) (s.withChildren (k ++ l), state) =
      some (s.withChildren (k ++ (rebuildAll f l state).1), (rebuildAll f l state).2) := by
  -- The children in `k` are rebuilt already.
  induction l generalizing k state with
  | nil => rfl
  | cons c rest ih =>
    rcases hr : c.rebuild f state with ⟨c', state'⟩
    have hchild := hl c List.mem_cons_self state
    rw [hr] at hchild
    have hchanged := changes_inside_child f (s := s.withChildren (k ++ c :: rest)) (i := k.length)
      (by rw [children_withChildren hs]; simp) hchild
    rw [children_withChildren hs, withChildren_withChildren hs,
      List.set_append_right _ _ (Nat.le_refl _), Nat.sub_self, List.set_cons_zero] at hchanged
    have hrest :=
      ih (k ++ [c']) state' (by simpa using hs) fun c hc => hl c (List.mem_cons_of_mem _ hc)
    rw [List.length_append, List.length_singleton, List.append_assoc, List.append_assoc,
      List.singleton_append, List.singleton_append] at hrest
    rw [listAddresses, List.foldlM_append, hchanged]
    simp only [rebuildAll, hr]
    exact hrest

theorem foldlM_changeAt?_addresses (s : Statement) (state : σ) :
    (s.addresses false).foldlM (changeAt? f) (s, state) = some (s.rebuild f state) := by
  induction s using induction_children generalizing state with
  | h s ih =>
    have hbelow := changes_inside_children f s [] s.children state rfl ih
    rw [List.nil_append, List.nil_append, withChildren_children, List.length_nil] at hbelow
    rw [addresses_eq, rebuild_eq]
    show (listAddresses false 0 s.children ++ [[]]).foldlM (changeAt? f) (s, state) = _
    rw [List.foldlM_append, hbelow]
    rfl

/-- The traversals agree. The walk with a stack lists a statement and what is inside it, and the
body of a function, like the recursive traversal, and then ends. That one takes the addresses in
order, parents first; rebuilding takes the same addresses, children first, and changes what stands
at each of them when its turn comes. -/
theorem traversals_agree (s : Statement) (function : FunctionDef) :
    walkAll [s] = s.descendants ∧ (∀ spare, walk (s.count + spare) [s] = s.descendants) ∧
      function.statements = function.body.flatMap descendants ∧
      (s.addresses true).map s.inside? = s.descendants.map some ∧
      (s.addresses true).Pairwise (Precedes true) ∧
      (s.addresses false).Perm (s.addresses true) ∧ (s.addresses false).Pairwise (Precedes false) ∧
      ∀ (σ : Type) (f : Statement → σ → Statement × σ) (state : σ),
        (s.addresses false).foldlM (changeAt? f) (s, state) = some (s.rebuild f state) := by
  refine ⟨?_, fun spare => ?_, walkAll_eq function.body, map_inside?_addresses s,
    pairwise_addresses s,
    perm_addresses s, pairwise_addresses s, fun σ f state => foldlM_changeAt?_addresses f s state⟩
  · rw [walkAll_eq, List.flatMap_singleton]
  · rw [walk_eq _ [s] (Nat.le_add_right s.count spare), listDescendants_eq_flatMap,
      List.flatMap_singleton]

end Statement

end Lift6502
