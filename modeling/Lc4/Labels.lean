import Lc4.Word

/-!
# The label table

Label names with their addresses, each name once, in the order of the names by code point.
-/
namespace Lc4

structure Labels where
  entries : List (String × Word)
  sorted : entries.Pairwise fun p q => p.1 < q.1

namespace Labels

def empty : Labels := ⟨[], .nil⟩

def insertEntry (name : String) (a : Word) : List (String × Word) → List (String × Word)
  | [] => [(name, a)]
  | p :: rest =>
    if name < p.1 then (name, a) :: p :: rest
    else if name = p.1 then (name, a) :: rest
    else p :: insertEntry name a rest

theorem mem_insertEntry {name : String} {a : Word} {es : List (String × Word)}
    {p : String × Word} (h : p ∈ insertEntry name a es) : p = (name, a) ∨ p ∈ es := by
  induction es with
  | nil => simpa [insertEntry] using h
  | cons q rest ih =>
    rw [insertEntry] at h
    split at h
    · simpa using h
    · split at h
      · rcases List.mem_cons.1 h with h | h
        · exact .inl h
        · exact .inr (List.mem_cons_of_mem _ h)
      · rcases List.mem_cons.1 h with h | h
        · exact .inr (h ▸ List.mem_cons_self)
        · exact (ih h).imp id (List.mem_cons_of_mem _)

theorem sorted_insertEntry (name : String) (a : Word) {es : List (String × Word)}
    (h : es.Pairwise fun p q => p.1 < q.1) :
    (insertEntry name a es).Pairwise fun p q => p.1 < q.1 := by
  induction es with
  | nil => simp [insertEntry]
  | cons q rest ih =>
    have hq := List.pairwise_cons.1 h
    rw [insertEntry]
    split
    · rename_i lt
      refine List.pairwise_cons.2 ⟨fun p hp => ?_, h⟩
      rcases List.mem_cons.1 hp with rfl | hp
      · exact lt
      · exact String.lt_trans lt (hq.1 p hp)
    · split
      · rename_i eq
        exact List.pairwise_cons.2 ⟨fun p hp => eq ▸ hq.1 p hp, hq.2⟩
      · rename_i not_lt ne
        refine List.pairwise_cons.2 ⟨fun p hp => ?_, ih hq.2⟩
        rcases mem_insertEntry hp with rfl | hp
        · grind
        · exact hq.1 p hp

/-- Adds a label; an older address of the same name is forgotten. -/
def insert (l : Labels) (name : String) (a : Word) : Labels :=
  ⟨insertEntry name a l.entries, sorted_insertEntry name a l.sorted⟩

def find? (l : Labels) (name : String) : Option Word :=
  l.entries.lookup name

end Labels

end Lc4
