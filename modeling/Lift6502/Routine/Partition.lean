import Lift6502.Flow.Walk
import Lift6502.Journal
import Lift6502.Routine.Basic

/-!
# Dividing blocks among routines

Each entry in turn claims what it reaches without passing through another entry; the first to claim
a block has it. New entries appear until no claim runs into another one. What nobody claims goes to
the closest entry before it.
-/

namespace Lift6502

structure Territory where
  entry : BlockId
  blocks : BlockSet
  deriving DecidableEq, Repr, Inhabited

namespace Territory

/-- Roots first, then the other entries in ascending order. -/
def entryOrder (roots : List BlockId) (entries : BlockSet) : List BlockId :=
  roots ++ entries.toList.filter fun entry => !roots.contains entry

def claimAll (g : Graph) (entries : List BlockId) : List Territory :=
  entries.foldl
    (fun claims entry =>
      let taken := claims.flatMap fun t => t.blocks.toList
      let others := entries.filter (· != entry)
      let blocks := BlockSet.ofList
        (reachableAvoiding g.size g.successors entry (taken ++ others))
      claims ++ [⟨entry, blocks⟩])
    []

/-- Called blocks, and blocks that another claim leads into. -/
def boundary (g : Graph) (claims : List Territory) : List BlockId :=
  claims.flatMap fun t => t.blocks.toList.flatMap fun b =>
    (g.block b).calls.map (·.2) ++
      (g.successors b).filter fun s =>
        !t.blocks.contains s && claims.any fun other => other.blocks.contains s

/-- Claims with more and more entries, until there is no new one. Each round but the last adds an
entry, so there are at most as many as there are blocks. -/
def settle (g : Graph) (roots : List BlockId) : Nat → BlockSet → List Territory × Journal
  | 0, entries => (claimAll g (entryOrder roots entries), [])
  | rounds + 1, entries =>
    let claims := claimAll g (entryOrder roots entries)
    let promoted := BlockSet.ofList ((boundary g claims).filter fun b => !entries.contains b)
    if promoted.isEmpty then (claims, [])
    else
      let (claims, journal) := settle g roots rounds (entries.union promoted)
      (claims, .debug ("[functions] promoting entries " ++ promoted.text) :: journal)

/-- The entry that a block nobody claims goes to: the last one before it, or else the first. -/
def fallback (entries : List BlockId) (b : BlockId) : Option BlockId :=
  match (entries.filter (· ≤ b)).max? with
  | some entry => some entry
  | none => entries.head?

end Territory

def Routines.partition (g : Graph) (roots : List BlockId) : Routines × Journal :=
  let roots := roots.eraseDups
  let (claims, journal) := Territory.settle g roots g.size (BlockSet.ofList roots)
  let entries := claims.map (·.entry)
  let unclaimed := g.ids.filter fun b => !claims.any fun t => t.blocks.contains b
  let routines := claims.map fun t =>
    let attached := unclaimed.filter fun b => Territory.fallback entries b = some t.entry
    { name := g.name t.entry, entry := t.entry, isRoot := roots.contains t.entry
      blocks := attached.foldl BlockSet.insert t.blocks : Routine }
  let described := routines.map fun r => Entry.debug ("[functions] " ++ r.name ++ " entry=" ++
    toString r.entry ++ " blocks=" ++ r.blocks.text)
  ({ all := routines }, journal ++ described)

end Lift6502
