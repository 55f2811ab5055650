import ValueFlow.Id
import ValueFlow.Value.Basic

namespace ValueFlow

def Ascending (entries : List (DeclId × Value)) : Prop :=
  entries.Pairwise fun x y => x.1.index < y.1.index

/-- A finite map, kept in ascending order so that equal maps are equal. -/
structure Bindings where
  entries : List (DeclId × Value)
  ascending : Ascending entries
deriving DecidableEq

namespace Bindings

/-- Binds `d` to `v` or, where it is bound to `w` already, to `f w v`. -/
def insertInto (f : Value → Value → Value) (d : DeclId) (v : Value) :
    List (DeclId × Value) → List (DeclId × Value)
  | [] => [(d, v)]
  | (e, w) :: rest =>
    if d.index < e.index then (d, v) :: (e, w) :: rest
    else if d = e then (e, f w v) :: rest
    else (e, w) :: insertInto f d v rest

theorem fst_mem_insertInto {f : Value → Value → Value} {d : DeclId} {v : Value}
    {entries : List (DeclId × Value)} {x : DeclId × Value} (h : x ∈ insertInto f d v entries) :
    x.1 = d ∨ ∃ y ∈ entries, y.1 = x.1 := by
  induction entries with
  | nil => simp_all [insertInto]
  | cons y rest ih =>
    obtain ⟨e, w⟩ := y
    simp only [insertInto] at h
    split at h
    · rcases List.mem_cons.1 h with rfl | h
      · exact .inl rfl
      · exact .inr ⟨x, h, rfl⟩
    · split at h
      · rcases List.mem_cons.1 h with rfl | h
        · exact .inr ⟨(e, w), by simp, rfl⟩
        · exact .inr ⟨x, List.mem_cons_of_mem _ h, rfl⟩
      · rcases List.mem_cons.1 h with rfl | h
        · exact .inr ⟨(e, w), by simp, rfl⟩
        · rcases ih h with h | ⟨y, hy, he⟩
          · exact .inl h
          · exact .inr ⟨y, List.mem_cons_of_mem _ hy, he⟩

theorem ascending_insertInto (f : Value → Value → Value) (d : DeclId) (v : Value)
    {entries : List (DeclId × Value)} (h : Ascending entries) :
    Ascending (insertInto f d v entries) := by
  induction entries with
  | nil => simp [insertInto, Ascending]
  | cons y rest ih =>
    obtain ⟨e, w⟩ := y
    obtain ⟨hhead, htail⟩ := List.pairwise_cons.1 h
    simp only [insertInto]
    split
    · refine List.pairwise_cons.2 ⟨fun y hy => ?_, h⟩
      rcases List.mem_cons.1 hy with rfl | hy
      · assumption
      · have := hhead y hy; simp only at *; omega
    · split
      · exact List.pairwise_cons.2 ⟨hhead, htail⟩
      · refine List.pairwise_cons.2 ⟨fun y hy => ?_, ih htail⟩
        rcases fst_mem_insertInto hy with hd | ⟨z, hz, he⟩
        · have : d.index ≠ e.index := fun hi => by cases d; cases e; simp_all
          simp only [hd]; omega
        · have := hhead z hz
          simp only [← he]; omega

def empty : Bindings := ⟨[], .nil⟩

def size (m : Bindings) : Nat := m.entries.length

def findIn (d : DeclId) (entries : List (DeclId × Value)) : Option Value :=
  (entries.find? fun e => e.1 = d).map (·.2)

def find? (m : Bindings) (d : DeclId) : Option Value := findIn d m.entries

def insertWith (f : Value → Value → Value) (m : Bindings) (d : DeclId) (v : Value) : Bindings :=
  ⟨insertInto f d v m.entries, ascending_insertInto f d v m.ascending⟩

def insert (m : Bindings) (d : DeclId) (v : Value) : Bindings := m.insertWith (fun _ v => v) d v

def erase (m : Bindings) (d : DeclId) : Bindings :=
  ⟨m.entries.filter fun e => e.1 ≠ d, m.ascending.filter _⟩

/-- All bindings of both maps; where both bind a declaration, `f` combines the two values. -/
def unionWith (f : Value → Value → Value) (m other : Bindings) : Bindings :=
  other.entries.foldl (fun m e => m.insertWith f e.1 e.2) m

def map (f : DeclId → Value → Value) (m : Bindings) : Bindings :=
  ⟨m.entries.map fun e => (e.1, f e.1 e.2), by
    have := m.ascending
    simpa only [Ascending, List.pairwise_map] using this⟩

end Bindings

end ValueFlow
