import Lc4.Machine.Load
import Lc4.Proofs.BlockCopy
import Lc4.Proofs.ObjectFiles

/-!
# What a load leaves

A load fills in what the blocks of a file say, block after block. So of all that a file says about
an address or a name the last counts, and what it does not speak of stays as it was. Bytes are
loaded as the file is that is read from them, with the part of a block that was cut short as its
last block.
-/
namespace Lc4

section Latest
variable {α β σ : Type} [DecidableEq α]

theorem lookup_cons_eq_ite (e : α × β) (entries : List (α × β)) (a : α) :
    (e :: entries).lookup a = if a = e.1 then some e.2 else entries.lookup a := by
  rw [List.lookup_cons]
  by_cases h : a = e.1
  · rw [if_pos h, beq_iff_eq.mpr h]
  · rw [if_neg h, beq_eq_false_iff_ne.mpr h]

/-- What a list of entries says last about a key. -/
def latest (entries : List (α × β)) (a : α) : Option β :=
  entries.reverse.lookup a

theorem latest_cons (e : α × β) (entries : List (α × β)) (a : α) :
    latest (e :: entries) a = (latest entries a).or (if a = e.1 then some e.2 else none) := by
  rw [latest, List.reverse_cons, List.lookup_append, lookup_cons_eq_ite, List.lookup_nil, latest]

/-- A fold whose steps each set one key leaves what its list says last about a key. -/
theorem find_foldl (find : σ → α → Option β) {set : σ → α × β → σ}
    (step : ∀ s e a, find (set s e) a = if a = e.1 then some e.2 else find s a)
    (entries : List (α × β)) (s : σ) (a : α) :
    find (entries.foldl set s) a = (latest entries a).or (find s a) := by
  induction entries generalizing s with
  | nil => rfl
  | cons e entries ih =>
    rw [List.foldl_cons, ih, step, latest_cons, Option.or_assoc]
    by_cases h : a = e.1
    · simp only [if_pos h, Option.some_or]
    · simp only [if_neg h, Option.none_or]

end Latest

namespace Labels

theorem lookup_insertEntry (name : String) (a : Word) (es : List (String × Word))
    (other : String) : (insertEntry name a es).lookup other =
      if other = name then some a else es.lookup other := by
  induction es with
  | nil => exact lookup_cons_eq_ite (name, a) [] other
  | cons p rest ih =>
    rw [insertEntry]
    by_cases before : name < p.1
    · rw [if_pos before, lookup_cons_eq_ite]
    · rw [if_neg before]
      by_cases same : name = p.1
      · rw [if_pos same, lookup_cons_eq_ite, lookup_cons_eq_ite]
        by_cases h : other = name
        · rw [if_pos h, if_pos h]
        · rw [if_neg h, if_neg h, if_neg (same ▸ h)]
      · rw [if_neg same, lookup_cons_eq_ite, lookup_cons_eq_ite, ih]
        by_cases h : other = name
        · rw [if_pos h, if_pos h, if_neg (h ▸ same)]
        · rw [if_neg h, if_neg h]

theorem find?_insert (l : Labels) (name : String) (a : Word) (other : String) :
    (l.insert name a).find? other = if other = name then some a else l.find? other :=
  lookup_insertEntry name a l.entries other

end Labels

namespace Memory

/-- A word that is written several times keeps what was written last. -/
theorem get_foldl_store (entries : List (Word × Word)) (m : Memory) (a : Word) :
    (entries.foldl store m).get a = (latest entries a).getD (m.get a) := by
  have step (s : Memory) (e : Word × Word) (a : Word) :
      some ((store s e).get a) = if a = e.1 then some e.2 else some (s.get a) := by
    rw [store, AddressMap.get_set]
    exact apply_ite some (a = e.1) e.2 (s.get a)
  have found := find_foldl (fun s a => some (s.get a)) step entries m a
  rw [Option.or_some] at found
  exact Option.some.inj found

end Memory

namespace Object

/-- The words that a block writes, with their addresses. -/
def Block.stores : Block → List (Word × Word)
  | .memory _ addr words => Memory.placed addr words
  | .symbol _ _ | .fileName _ | .line _ _ _ => []

/-- The label that a block sets. -/
def Block.symbol? : Block → Option (String × Word)
  | .symbol addr name => some (name, addr)
  | .memory _ _ _ | .fileName _ | .line _ _ _ => none

/-- The reader hands out what is collected from a byte string. -/
theorem Contents.yields (bytes : List UInt8) :
    (Reader.ofBytes bytes).Yields (Contents.ofBytes bytes).results := by
  obtain ⟨records, rest, splits⟩ := exists_splits bytes
  rw [Contents.ofBytes_of_splits splits]
  exact Reader.yields_of_splits splits

end Object

namespace ObjectFile

open Object

/-- The words that a file writes, with their addresses and in file order. -/
def stores (f : ObjectFile) : List (Word × Word) :=
  f.blocks.flatMap Block.stores

end ObjectFile

namespace Machine

open Object

/-- The machine with words, labels and notes added. -/
def adding (m : Machine) (words : List (Word × Word)) (symbols : List (String × Word)) :
    Machine :=
  { m with
    mem := words.foldl Memory.store m.mem
    labels := symbols.foldl (fun l e => l.insert e.1 e.2) m.labels
    notes := symbols.foldl (fun n e => n.setLabel e.2 e.1) m.notes }

/-- A block adds words to memory and at most one symbol. -/
theorem loadBlock_eq_adding (m : Machine) (b : Block) :
    m.loadBlock b = m.adding b.stores b.symbol?.toList := by
  cases b with
  | memory part addr words => rw [loadBlock, Memory.copyBlock_eq_foldl]; rfl
  | symbol | fileName | line => rfl

theorem adding_adding (m : Machine) (words words' : List (Word × Word))
    (symbols symbols' : List (String × Word)) :
    (m.adding words symbols).adding words' symbols' =
      m.adding (words ++ words') (symbols ++ symbols') := by
  simp only [adding, List.foldl_append]

/-- Blocks one after the other add all their words and all their symbols. -/
theorem foldl_loadBlock (m : Machine) (f : ObjectFile) :
    f.blocks.foldl loadBlock m = m.adding f.stores f.symbols := by
  obtain ⟨blocks⟩ := f
  induction blocks generalizing m with
  | nil => rfl
  | cons b blocks ih =>
    have symbols : ObjectFile.symbols ⟨b :: blocks⟩ =
        b.symbol?.toList ++ ObjectFile.symbols ⟨blocks⟩ := by
      cases b <;> rfl
    have stores : ObjectFile.stores ⟨b :: blocks⟩ = b.stores ++ ObjectFile.stores ⟨blocks⟩ :=
      List.flatMap_cons
    rw [List.foldl_cons, ih, loadBlock_eq_adding, adding_adding, symbols, stores]

/-- A load adds what the file says and leaves the machine idle. -/
theorem loadFile_eq_adding (m : Machine) (f : ObjectFile) :
    m.loadFile f = { m.adding f.stores f.symbols with status := .idle } := by
  rw [loadFile, foldl_loadBlock]

theorem loadFile_append (m : Machine) (blocks : List Block) (b : Block) :
    m.loadFile ⟨blocks ++ [b]⟩ = (m.loadFile ⟨blocks⟩).loadBlock b := by
  have last : (blocks ++ [b]).foldl loadBlock m = (blocks.foldl loadBlock m).loadBlock b := by
    rw [List.foldl_append, List.foldl_cons, List.foldl_nil]
  rw [loadFile, last]
  cases b <;> rfl

/-- Bytes are loaded as the file of their blocks and of the part of a block that was cut short. -/
theorem loadBytes_eq_loadFile (m : Machine) (bytes : List UInt8) :
    let c := Contents.ofBytes bytes
    m.loadBytes bytes =
      (m.loadFile ⟨c.blocks ++ (c.error.bind ReadError.part?).toList⟩, c.error) := by
  intro c
  obtain ⟨records, rest, splits⟩ := exists_splits bytes
  have folded : foldBlocks loadBlock { m with status := .idle } bytes =
      (m.loadFile ⟨c.blocks⟩, c.error) := by
    rw [foldBlocks_of_splits _ _ splits, show c = _ from Contents.ofBytes_of_splits splits,
      foldl_loadBlock _ ⟨_⟩, loadFile_eq_adding]
    rfl
  rw [loadBytes, folded]
  cases part : c.error.bind ReadError.part? with
  | none => simp only [Option.toList_none, List.append_nil, part]
  | some b => simp only [Option.toList_some, loadFile_append, part]

section Parts
variable (m : Machine) (f : ObjectFile)

/-- The last word that a file has for an address is there after the load. -/
theorem mem_loadFile (a : Word) :
    (m.loadFile f).mem.get a = (latest f.stores a).getD (m.mem.get a) := by
  rw [loadFile_eq_adding]
  exact Memory.get_foldl_store f.stores m.mem a

theorem labels_loadFile (name : String) :
    (m.loadFile f).labels.find? name = (latest f.symbols name).or (m.labels.find? name) := by
  rw [loadFile_eq_adding]
  exact find_foldl Labels.find? (fun l e other => l.find?_insert e.1 e.2 other) f.symbols
    m.labels name

theorem label?_loadFile (a : Word) :
    (m.loadFile f).notes.label? a =
      (latest (f.symbols.map Prod.swap) a).or (m.notes.label? a) := by
  have found := find_foldl Notes.label? (fun n e b => n.label?_setLabel e.1 b e.2)
    (f.symbols.map Prod.swap) m.notes a
  rw [List.foldl_map] at found
  rw [loadFile_eq_adding]
  exact found

/-- Breakpoints are the user's, and no file moves them. -/
theorem isBreakpoint_loadFile (a : Word) :
    (m.loadFile f).notes.isBreakpoint a = m.notes.isBreakpoint a := by
  have kept (symbols : List (String × Word)) (n : Notes) :
      (symbols.foldl (fun n e => n.setLabel e.2 e.1) n).isBreakpoint a = n.isBreakpoint a := by
    induction symbols generalizing n with
    | nil => rfl
    | cons e symbols ih => rw [List.foldl_cons, ih, Notes.isBreakpoint_setLabel]
  rw [loadFile_eq_adding]
  exact kept f.symbols m.notes

end Parts

/-- A load of bytes and the load of the file that is read from them leave the same machine, and
the bytes load without an error exactly if they are an object file. Of all that the file says about
an address or a name the last counts; whatever it does not speak of is kept, and so is every
breakpoint. -/
theorem loadBytes_latest (m : Machine) (bytes : List UInt8) :
    let c := Contents.ofBytes bytes
    let f : ObjectFile := ⟨c.blocks ++ (c.error.bind ReadError.part?).toList⟩
    let s := (m.loadBytes bytes).1
    (Reader.ofBytes bytes).Yields c.results ∧
    s = m.loadFile f ∧
    ObjectFile.ofBytes bytes = (match (m.loadBytes bytes).2 with
      | none => .ok ⟨c.blocks⟩
      | some e => .error e) ∧
    (∀ a, s.mem.get a = (latest f.stores a).getD (m.mem.get a)) ∧
    (∀ name, s.labels.find? name = (latest f.symbols name).or (m.labels.find? name)) ∧
    (∀ a, s.notes.label? a = (latest (f.symbols.map Prod.swap) a).or (m.notes.label? a)) ∧
    (∀ a, s.notes.isBreakpoint a = m.notes.isBreakpoint a) ∧
    s = { m with mem := s.mem, labels := s.labels, notes := s.notes, status := .idle } := by
  intro c f s
  have loaded : m.loadBytes bytes = (m.loadFile f, c.error) := loadBytes_eq_loadFile m bytes
  have same : s = m.loadFile f := congrArg Prod.fst loaded
  refine ⟨Contents.yields bytes, same, ?_, ?_, ?_, ?_, ?_, ?_⟩
  · rw [loaded]
    rfl
  · rw [same]
    exact mem_loadFile m f
  · rw [same]
    exact labels_loadFile m f
  · rw [same]
    exact label?_loadFile m f
  · rw [same]
    exact isBreakpoint_loadFile m f
  · rw [same, loadFile_eq_adding]
    rfl

end Machine

end Lc4
