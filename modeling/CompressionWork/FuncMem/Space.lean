/-
# The functional memory

`memory_space_impl<BSIZE>` keeps a map from block indices to blocks of `BSIZE = 2 ^ k` bytes.
Addresses and indices are 32-bit unsigned numbers; a length is a `size_t`, so `addr + length` is
computed in 64 bits and `(index + 1) * BSIZE` in 32.

* `Space.write`, `Space.read` — the translation;
* `Flat` — a flat array of bytes.
-/
import Mathlib

namespace CompressionWork
namespace FuncMem

/-- The values of an `unsigned`. -/
def addrSpace : ℕ := 2 ^ 32

/-! ## One block -/

/-- `mem_storage<BSIZE>`, by offset; a new block is zero. -/
abbrev Storage := ℕ → UInt8

/-- A block whose bytes are all zero. -/
def Storage.zero : Storage := fun _ => 0

/-- `mem_storage::write`. `none` stands for a failed assertion. -/
def Storage.write (bsize : ℕ) (b : Storage) (offset length : ℕ) (data : List UInt8) : Option Storage :=
  if offset + length ≤ bsize then
    some fun i => if offset ≤ i ∧ i < offset + length then data.getD (i - offset) 0 else b i
  else none

/-- `mem_storage::read`. -/
def Storage.read (bsize : ℕ) (b : Storage) (offset length : ℕ) : Option (List UInt8) :=
  if offset + length ≤ bsize then some ((List.range length).map fun i => b (offset + i)) else none

/-! ## The map of blocks -/

/-- `m_data`. -/
abbrev Space := ℕ → Option Storage

/-- No block is allocated. -/
def Space.empty : Space := fun _ => none

/-- `(index + 1) * BSIZE`, which is 0 behind the topmost block. -/
def blockLimit (k index : ℕ) : ℕ := (index + 1) * 2 ^ k % addrSpace

/-- `m_data[page].write`, which makes the block when there is none. -/
def Space.writeBlock (k : ℕ) (s : Space) (page offset length : ℕ) (data : List UInt8) :
    Option Space :=
  (((s page).getD Storage.zero).write (2 ^ k) offset length data).map fun b =>
    fun p => if p = page then some b else s p

/-- The bytes of an access that fall into the block at `offset`. -/
def txBytes (k offset remain : ℕ) : ℕ :=
  let limit := (offset + remain) % addrSpace
  let limit := if 2 ^ k < limit then 2 ^ k else limit
  (limit + addrSpace - offset) % addrSpace

/-- The loop of `write` over the blocks. Every round writes at least one byte, so `fuel` rounds are
enough for `fuel` bytes. -/
def Space.writeLoop (k : ℕ) : ℕ → Space → ℕ → List UInt8 → Option Space
  | 0, s, _, data => if data = [] then some s else none
  | fuel + 1, s, addr, data =>
      if data = [] then some s
      else do
        let offset := addr &&& (2 ^ k - 1)
        let page := addr >>> k
        let tx := txBytes k offset data.length
        let s ← s.writeBlock k page offset tx data
        s.writeLoop k fuel ((addr + tx) % addrSpace) (data.drop tx)

/-- `write`; `nbytes` is an `unsigned`. -/
def Space.write (k : ℕ) (s : Space) (addr : ℕ) (data : List UInt8) : Option Space :=
  let index := addr >>> k
  let nbytes := data.length % addrSpace
  if addr + data.length ≤ blockLimit k index then
    s.writeBlock k index (addr &&& (2 ^ k - 1)) nbytes data
  else s.writeLoop k nbytes addr (data.take nbytes)

/-- `read_single_block`. `none` stands for the exception. -/
def Space.readSingleBlock (k : ℕ) (s : Space) (index addr length : ℕ) : Option (List UInt8) :=
  if blockLimit k index < addr + length then none
  else match s index with
    | none => some (List.replicate length 0)
    | some b => b.read (2 ^ k) (addr &&& (2 ^ k - 1)) (length % addrSpace)

/-- The loop of `read` over the blocks. -/
def Space.readLoop (k : ℕ) (s : Space) : ℕ → ℕ → ℕ → Option (List UInt8)
  | 0, _, remain => if remain = 0 then some [] else none
  | fuel + 1, addr, remain =>
      if remain = 0 then some []
      else do
        let offset := addr &&& (2 ^ k - 1)
        let page := addr >>> k
        let tx := txBytes k offset remain
        let bytes ← s.readSingleBlock k page addr tx
        let rest ← s.readLoop k fuel ((addr + tx) % addrSpace) (remain - tx)
        some (bytes ++ rest)

/-- `read`, without approximation. -/
def Space.read (k : ℕ) (s : Space) (addr length : ℕ) : Option (List UInt8) :=
  let index := addr >>> k
  let nbytes := length % addrSpace
  if addr + length ≤ blockLimit k index then s.readSingleBlock k index addr length
  else s.readLoop k nbytes addr nbytes

/-! ## Calls -/

/-- A call of `write` or `read`. -/
inductive Call where
  | write (addr : ℕ) (data : List UInt8)
  | read (addr length : ℕ)

/-- The first address of a call. -/
def Call.addr : Call → ℕ
  | .write addr _ => addr
  | .read addr _ => addr

/-- The number of bytes of a call. -/
def Call.length : Call → ℕ
  | .write _ data => data.length
  | .read _ length => length

/-- The address is a 32-bit number and the last byte has a 32-bit address. -/
def Call.InRange (c : Call) : Prop := c.addr < addrSpace ∧ c.addr + c.length ≤ addrSpace

/-- What the reads return, in order. -/
def Space.run (k : ℕ) (s : Space) : List Call → Option (List (List UInt8))
  | [] => some []
  | .write addr data :: calls => do
      let s ← s.write k addr data
      s.run k calls
  | .read addr length :: calls => do
      let bytes ← s.read k addr length
      let rest ← s.run k calls
      some (bytes :: rest)

/-! ## The flat array -/

/-- A flat array of bytes, by address. -/
abbrev Flat := ℕ → UInt8

/-- All bytes are zero. -/
def Flat.zero : Flat := fun _ => 0

/-- The bytes from `addr` on become `data`. -/
def Flat.write (f : Flat) (addr : ℕ) (data : List UInt8) : Flat :=
  fun a => if addr ≤ a ∧ a < addr + data.length then data.getD (a - addr) 0 else f a

/-- The bytes from `addr` on. -/
def Flat.read (f : Flat) (addr length : ℕ) : List UInt8 :=
  (List.range length).map fun i => f (addr + i)

/-- What the reads of a list of calls return. -/
def Flat.run (f : Flat) : List Call → List (List UInt8)
  | [] => []
  | .write addr data :: calls => (f.write addr data).run calls
  | .read addr length :: calls => f.read addr length :: f.run calls

end FuncMem
end CompressionWork
