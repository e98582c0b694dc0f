import RustyBrain.Lib.PointerCycle
import RustyBrain.Types.Basic

/-!
# rusty-brain — circles in the history of a memory

`memory_history` lists what replaced a memory and what it replaced, along `superseded_by`, and
reports whether these pointers run in a circle.

## Results

* `hasSupersedeCycle_iff` — `has_supersede_cycle` is exact.
-/

namespace RustyBrain.Store

open List Relation PointerCycle

/-- `HistoryEntry`, as far as `has_supersede_cycle` reads it. -/
structure HistoryEntry where
  id : MemoryId
  supersededBy : Option MemoryId

/-- The chain of a history. Both walks group their rows by id, and the merge drops the
ancestors that are successors too, so that each member appears once. -/
structure HistoryChain where
  entries : List HistoryEntry
  nodup : (entries.map HistoryEntry.id).Nodup

namespace HistoryChain

variable (chain : HistoryChain) {a b : MemoryId}

def members : List MemoryId := chain.entries.map HistoryEntry.id

/-- What is collected into the map `next`. -/
def pointers : List (MemoryId × MemoryId) :=
  chain.entries.filterMap fun entry =>
    (entry.supersededBy.filter fun id => id ∈ chain.members).map fun next => (entry.id, next)

/-- The map `next`. Ids are distinct, so no pointer is replaced in it. -/
def next : Pointers MemoryId where
  get a := (chain.pointers.find? fun p => p.1 = a).map Prod.snd
  keys := (chain.pointers.map Prod.fst).toFinset
  mem {a b} h := by
    obtain ⟨p, hp, -⟩ := Option.map_eq_some_iff.mp h
    have hKey : p.1 = a := by simpa using find?_some hp
    rw [mem_toFinset, mem_map]
    exact ⟨p, mem_of_find?_eq_some hp, hKey⟩

/-- `has_supersede_cycle`, for the order in which the map gives its keys. -/
def hasSupersedeCycle (order : List MemoryId) : Bool := search chain.next order []

/-- A memory of the chain was replaced by another one of it. -/
def Supersedes (a b : MemoryId) : Prop :=
  ∃ entry ∈ chain.entries, entry.id = a ∧ entry.supersededBy = some b ∧ b ∈ chain.members

variable {chain}

theorem mem_pointers : (a, b) ∈ chain.pointers ↔ chain.Supersedes a b := by
  simp only [pointers, mem_filterMap, Option.map_eq_some_iff, Option.filter_eq_some_iff,
    decide_eq_true_eq, Prod.mk.injEq, Supersedes]
  constructor
  · rintro ⟨entry, hIn, _, ⟨hNext, hMember⟩, hId, rfl⟩
    exact ⟨entry, hIn, hId, hNext, hMember⟩
  · rintro ⟨entry, hIn, hId, hNext, hMember⟩
    exact ⟨entry, hIn, b, ⟨hNext, hMember⟩, hId, rfl⟩

/-- The map that the search follows holds the pointers of the chain. -/
theorem points_iff : chain.next.Points a b ↔ chain.Supersedes a b := by
  rw [← mem_pointers]
  constructor
  · intro h
    obtain ⟨p, hp, rfl⟩ := Option.map_eq_some_iff.mp h
    obtain rfl : p.1 = a := by simpa using find?_some hp
    exact mem_of_find?_eq_some hp
  · intro h
    cases hFind : chain.pointers.find? fun p => p.1 = a with
    | none => exact absurd (find?_eq_none.mp hFind _ h) (by simp)
    | some p =>
      obtain rfl : p.1 = a := by simpa using find?_some hFind
      -- both pointers are of the one entry with this id
      obtain ⟨e, he, hId, hNext, -⟩ := mem_pointers.mp h
      obtain ⟨e', he', hId', hNext', -⟩ := mem_pointers.mp (mem_of_find?_eq_some hFind)
      obtain rfl := inj_on_of_nodup_map chain.nodup he he' (hId.trans hId'.symm)
      show (chain.pointers.find? fun q => q.1 = p.1).map Prod.snd = some b
      rw [hFind]
      exact hNext'.symm.trans hNext

/-- **Key result:** the search reports a circle exactly when the pointers within the chain have
one, in whatever order it takes them. -/
theorem hasSupersedeCycle_iff (chain : HistoryChain) {order : List MemoryId}
    (hOrder : order.Perm (chain.pointers.map Prod.fst)) :
    chain.hasSupersedeCycle order = true ↔ ∃ a, TransGen chain.Supersedes a a := by
  have hSame : chain.next.Points = chain.Supersedes := funext₂ fun a b => propext points_iff
  rw [hasSupersedeCycle, search_iff fun a ha => hOrder.mem_iff.mpr (mem_toFinset.mp ha), hSame]

/-- Two memories that replaced each other, and one that leads to them. -/
def circular : HistoryChain where
  entries := [⟨⟨1⟩, some ⟨2⟩⟩, ⟨⟨2⟩, some ⟨3⟩⟩, ⟨⟨3⟩, some ⟨2⟩⟩]
  nodup := by decide

theorem hasSupersedeCycle_circular : [⟨3⟩, ⟨1⟩, ⟨2⟩].Perm (circular.pointers.map Prod.fst) ∧
    (circular.hasSupersedeCycle [⟨3⟩, ⟨1⟩, ⟨2⟩] = true ↔ ∃ a, TransGen circular.Supersedes a a) :=
  have hOrder : [⟨3⟩, ⟨1⟩, ⟨2⟩].Perm (circular.pointers.map Prod.fst) := by decide
  ⟨hOrder, hasSupersedeCycle_iff circular hOrder⟩

end HistoryChain

end RustyBrain.Store
