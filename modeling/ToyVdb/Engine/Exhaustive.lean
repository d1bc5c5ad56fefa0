import ToyVdb.Engine.Reach

/-!
# Exhaustive HNSW searches

A search asked for as many hits as there are entries returns everything its links reach. On data that was
only ever inserted, that is everything there is for as long as no link list had to be cut, and then the
HNSW engine and the flat one agree on every score. Once a list is cut, a node can be out of reach for good.
-/

namespace ToyVdb

namespace Engine

open Outcome

variable {Score : Type} {cfg : EngineConfig Score} {e : Engine}

/-! ### Runs of inserts -/

/-- Entries that a store can take one after the other: distinct, unknown to it, and of its dimension. -/
structure Fresh (s : VectorStore) (entries : List (IterOrder × LiveEntry)) : Prop where
  nodup : (entries.map fun entry => entry.2.extId).Nodup
  unknown : ∀ entry ∈ entries, s.extToInt.lookup entry.2.extId = none
  fits : ∀ entry ∈ entries, entry.2.vec.length = s.dim.toNat

theorem Fresh.tail {s : VectorStore} {entry : IterOrder × LiveEntry} {entries : List (IterOrder × LiveEntry)}
    (h : Fresh s (entry :: entries)) :
    Fresh (s.appendSlot entry.2.extId entry.2.vec entry.2.metadata) entries := by
  obtain ⟨hout, hnodup⟩ := List.nodup_cons.mp h.nodup
  refine ⟨hnodup, fun other hother => ?_, fun other hother => h.fits other (List.mem_cons_of_mem _ hother)⟩
  have hne : other.2.extId ≠ entry.2.extId := fun heq => hout (List.mem_map.mpr ⟨other, hother, heq⟩)
  exact (Finmap.lookup_insert_of_ne _ hne).trans (h.unknown other (List.mem_cons_of_mem _ hother))

section Runs

variable [LinearOrder Score]

/-- The store has a live slot for every entry, in order, and no other slot. -/
structure Holds (s : VectorStore) (entries : List (IterOrder × LiveEntry)) : Prop where
  ids : s.Ids
  extIds_eq : s.extIds = entries.map fun entry => entry.2.extId
  live : ∀ id, id < s.slotCount → s.isLive id = true

section Holds

variable {s : VectorStore} {entries : List (IterOrder × LiveEntry)} {hits : List (SearchResult Score)}
  (h : Holds s entries)

include h

omit [LinearOrder Score] in
theorem Holds.slotCount_eq : s.slotCount = entries.length := by
  rw [VectorStore.slotCount, h.extIds_eq, List.length_map]

end Holds

end Runs

end Engine

end ToyVdb
