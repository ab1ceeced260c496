import CompressionWork.Codec.Huffman
import CompressionWork.Line
import Mathlib.Data.List.Sort

/-!
# Sampled code tables

SC2 and FP-H count the words (or the fields of the words) of the lines they sample and
build a Huffman code for the most frequent ones; the code is written to a file, one
`symbol code` pair a line, and read back for the encoding phase.  Both compressors carry
their own copy of the functions; the copies differ in the table size only.

* `countWords` — the sampler's `unordered_map<string, long long>`.
* `genHfTree` — merges the two smallest entries and sorts again until one is left.
* `traverse` — reads the codes off the tree.
* `codeTable` — sort, truncate, sort, build, traverse.
* `writeFile`, `readTracker` — the table on its way through the file.

The C++ library leaves two things open: the order in which a hash map is iterated and the
order in which `std::sort` leaves equal keys.  `StdOrder` is any choice it may make.  The
`val` field of a tree node is written and never read, so it is left out.
-/

namespace CompressionWork.Sampling

open Codec

/-! ## Maps -/

/-- `map.insert(make_pair(k, v))`: keeps the value that is there already. -/
def insertNew {β : Type*} (t : List (Str × β)) (k : Str) (v : β) : List (Str × β) :=
  if (t.lookup k).isSome then t else t ++ [(k, v)]

/-- One word of the sampling loops: a new word starts at 1, a known one is incremented. -/
def countWord (t : List (Str × ℕ)) (w : Str) : List (Str × ℕ) :=
  if (t.lookup w).isSome then t.map fun p => if p.1 = w then (p.1, p.2 + 1) else p
  else t ++ [(w, 1)]

/-- The table after sampling a sequence of words. -/
def countWords (words : List Str) : List (Str × ℕ) := words.foldl countWord []

/-! ## Entries -/

/-- The trees of both compressors (`Tree`, `hufman`). -/
abbrev Tree := Codec.Tree Str

/-- `pair<int, pair<Tree*, string>>`; a null pointer means that only the symbol is there. -/
structure Entry where
  first : ℤ
  tree : Option Tree
  symbol : Str
  deriving DecidableEq

/-- The conversion of a `long long` (or of an `int` sum) to a 32-bit `int`. -/
def asInt (n : ℤ) : ℤ := n.bmod (2 ^ 32)

/-- The subtree of an entry: a new leaf when there is none yet. -/
def Entry.node (a : Entry) : Tree := a.tree.getD (.leaf a.symbol)

/-- The entry `c` of two merged entries. -/
def mergeEntries (a b : Entry) : Entry where
  first := asInt (a.first + b.first)
  tree := some (.node a.node b.node)
  symbol := []

/-! ## What the C++ library leaves open -/

/-- A choice of the iteration order of hash maps and of the order of equal keys in sorts. -/
structure StdOrder where
  iterate : ∀ {β : Type}, List (Str × β) → List (Str × β)
  sortInc : List Entry → List Entry
  sortDec : List Entry → List Entry
  iterate_perm : ∀ {β : Type} (t : List (Str × β)), (iterate t).Perm t
  sortInc_perm : ∀ track, (sortInc track).Perm track
  sortDec_perm : ∀ track, (sortDec track).Perm track
  sortInc_sorted : ∀ track, (sortInc track).Pairwise fun a b => a.first ≤ b.first
  sortDec_sorted : ∀ track, (sortDec track).Pairwise fun a b => b.first ≤ a.first

instance : Std.Total fun a b : Entry => a.first ≤ b.first := ⟨fun _ _ => Int.le_total _ _⟩

instance : IsTrans Entry fun a b => a.first ≤ b.first := ⟨fun _ _ _ => Int.le_trans⟩

instance : Std.Total fun a b : Entry => b.first ≤ a.first := ⟨fun _ _ => Int.le_total _ _⟩

instance : IsTrans Entry fun a b => b.first ≤ a.first := ⟨fun _ _ _ h₁ h₂ => Int.le_trans h₂ h₁⟩

/-- Maps iterated in order of insertion, equal keys kept in their order. -/
def StdOrder.stable : StdOrder where
  iterate t := t
  sortInc track := track.insertionSort fun a b => a.first ≤ b.first
  sortDec track := track.insertionSort fun a b => b.first ≤ a.first
  iterate_perm t := List.Perm.refl t
  sortInc_perm track := List.perm_insertionSort _ track
  sortDec_perm track := List.perm_insertionSort _ track
  sortInc_sorted track := List.pairwise_insertionSort _ track
  sortDec_sorted track := List.pairwise_insertionSort _ track

instance : Inhabited StdOrder := ⟨StdOrder.stable⟩

/-! ## The code of a table -/

section

variable (std : StdOrder)

/-- The recursion of `gen_hf_tree` and `construct_tree`; every call has one entry less. -/
def genHfTreeAux : ℕ → List Entry → Option Tree
  | _, [] => none
  | _, [a] => some a.node
  | 0, _ => none
  | n + 1, a :: b :: track => genHfTreeAux n (std.sortInc (track ++ [mergeEntries a b]))

/-- `gen_hf_tree`. -/
def genHfTree (track : List Entry) : Option Tree := genHfTreeAux std track.length track

/-- `traverse`: inserts the path of every leaf into the code map. -/
def traverse : Tree → Str → List (Str × Str) → List (Str × Str)
  | .leaf symbol, stack, code => insertNew code symbol stack
  | .node left right, stack, code =>
      traverse right (stack ++ ['1']) (traverse left (stack ++ ['0']) code)

/-- The entries of the hash map, in iteration order. -/
def trackOf (table : List (Str × ℕ)) : List Entry :=
  (std.iterate table).map fun p => ⟨asInt p.2, none, p.1⟩

/-- `pick_up_size` and `resize`: the first `limit` entries of the track, or all of them. -/
def pickUpSize (limit : ℕ) (track : List Entry) : List Entry :=
  track.take (if limit < track.length then limit else track.length)

/-- `fill_data`, and the first half of `write_data_file`: the `limit` most frequent entries,
the least frequent one first. -/
def fillData (limit : ℕ) (table : List (Str × ℕ)) : List Entry :=
  std.sortInc (pickUpSize limit (std.sortDec (trackOf std table)))

/-- The code map that a sampled table leads to. -/
def codeTable (limit : ℕ) (table : List (Str × ℕ)) : List (Str × Str) :=
  match genHfTree std (fillData std limit table) with
  | none => []
  | some root => traverse root [] []

/-! ## The file -/

/-- `write_file`: one line for each pair of the code map. -/
def writeFile (code : List (Str × Str)) : List Str :=
  (std.iterate code).map fun p => p.1 ++ ' ' :: p.2

end

/-- The `getline` loop of `split`; `item` holds what has been read of the current piece. -/
def splitAux (del : Char) : Str → Str → List Str
  | item, [] => if item = [] then [] else [item]
  | item, c :: s => if c = del then item :: splitAux del [] s else splitAux del (item ++ [c]) s

/-- `split`: the pieces of a line between the separators. -/
def split (s : Str) (del : Char) : List Str := splitAux del [] s

/-- `form_tracker`, `init_tracker`: lines with fewer than two pieces are skipped. -/
def readTracker (lines : List Str) : List (Str × Str) :=
  lines.foldl (fun tracker line =>
    match split line ' ' with
    | k :: v :: _ => insertNew tracker k v
    | _ => tracker) []

/-- The table the encoder works with: the sampled one, written and read back. -/
def tracker (std : StdOrder) (limit : ℕ) (table : List (Str × ℕ)) : List (Str × Str) :=
  readTracker (writeFile std (codeTable std limit table))

end CompressionWork.Sampling
