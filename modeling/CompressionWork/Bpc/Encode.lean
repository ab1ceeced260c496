import CompressionWork.Bpc.Transform

/-!
# Bit-plane compression: the encoder

The second half of `hpcl_comp_bpc_pl_proc.h`.  The base word gets a prefix that says how
many of its digits are stored; the planes `dbx` are encoded one by one, runs of zero planes
together.  The source keeps a plane that is not encoded yet as the string `"index#plane"`
and a code as itself; here the two are the constructors of `Lookup`.
-/

namespace CompressionWork.Bpc

/-- `std::string::find`: the first place where `pat` begins in `s`. -/
def find (s pat : Str) : Option ℕ :=
  (List.range (s.length + 1)).find? fun i => pat.isPrefixOf (s.drop i)

/-- An element of `dbx` in the encoder. -/
inductive Lookup where
  | pending (orgIndex : ℕ) (act : Str)
  | done (code : Str)

/-- `create_lookup`, from the index `i` on. -/
def createLookup : ℕ → List Str → List Lookup
  | _, [] => []
  | i, act :: dbx => .pending i act :: createLookup (i + 1) dbx

/-- `traverse`: the zero planes at the front. -/
def traverse : List Lookup → ℕ
  | .pending _ cur :: rest =>
      if (find cur (List.replicate cur.length '0')).isSome then traverse rest + 1 else 0
  | _ => 0

/-- The code of a run of `maxZero` zero planes. -/
def zeroCode (maxZero : ℕ) : Str :=
  if maxZero = 1 then ['0', '0', '1'] else ['0', '1'] ++ getBinary (maxZero - 2) 5

/-- `encode_run_len`.  After a run the index jumps over the planes the run covers; `skip`
counts those still to be passed. -/
def encodeRunLen : ℕ → List Lookup → List Lookup
  | _, [] => []
  | skip + 1, _ :: dbx => encodeRunLen skip dbx
  | 0, row :: dbx =>
      let maxZero := traverse (row :: dbx)
      if 1 ≤ maxZero then .done (zeroCode maxZero) :: encodeRunLen (maxZero - 1) dbx
      else row :: encodeRunLen 0 dbx

/-- `one_check`: is the plane zero around the `len` characters at `it`? -/
def oneCheck (code : Str) (len : ℕ) (act : Str) (it : ℕ) : Option Str :=
  let fwStr := act.take it
  let bwStr := act.drop (it + len)
  if (find fwStr (List.replicate fwStr.length '0')).isSome ∧
      (find bwStr (List.replicate bwStr.length '0')).isSome then
    some (code ++ getBinary it 5)
  else none

/-- `zero_check`. -/
def zeroCheck (a : Str) (rowLen : ℕ) : Bool := (find a (List.replicate rowLen '0')).isSome

/-- The tests of `encode_others` on a plane `act` of `dbx` and the plane `dbpRow` of `dbp` at
its index: all ones, two ones in a row, a single one, a zero plane of `dbp`. -/
def rowCode (rowLen : ℕ) (dbpRow act : Str) : Option Str :=
  if (find act (List.replicate rowLen '1')).isSome then some ['0', '0', '0', '0', '0']
  else
    (((find act ['1', '1']).bind fun c => oneCheck ['0', '0', '0', '1', '0'] 2 act c).or
      ((find act ['1']).bind fun c => oneCheck ['0', '0', '0', '1', '1'] 1 act c)).or
      (if zeroCheck dbpRow rowLen then some ['0', '0', '0', '0', '1'] else none)

/-- One round of `encode_others`.  A plane that no test accepts is stored as it is: `uncomp`
is built as `"1" + act`, but `act` is what is pushed. -/
def encodeOther (dbp : List Str) (rowLen : ℕ) : Lookup → Str
  | .done code => code
  | .pending orgIndex act => (rowCode rowLen (dbp.getD orgIndex []) act).getD act

/-- `encode_others`. -/
def encodeOthers (dbp : List Str) (rowLen : ℕ) (dbx : List Lookup) : List Str :=
  dbx.map (encodeOther dbp rowLen)

/-- `do_actual_encode`: the codes of all planes in a row. -/
def doActualEncode (dbp dbx : List Str) : Str :=
  (encodeOthers dbp (dbx.headD []).length (encodeRunLen 0 (createLookup 0 dbx))).flatten

/-- `compress_base`. -/
def compressBase (base : Str) : Str :=
  if base = List.replicate 32 '0' then ['0', '0', '0']
  else if base.take 28 = List.replicate 28 '0' then ['0', '0', '1'] ++ base.drop 28
  else if base.take 24 = List.replicate 24 '0' then ['0', '1', '0'] ++ base.drop 24
  else if base.take 16 = List.replicate 16 '0' then ['0', '1', '1'] ++ base.drop 16
  else ['1'] ++ base

/-- The result of `run`: the output string and what is stored in the `mem_fetch`. -/
structure Result where
  output : Str
  compDataSize : ℕ
  compDataBits : ℕ
  deriving DecidableEq

/-- The output string for the words of a line. -/
def encodeWords (rawBinaryData : List Str) : Option Str :=
  let delta := getDeltaValue rawBinaryData
  (rotateMat90 delta.tail).map fun dbp =>
    compressBase (delta.headD []) ++ doActualEncode dbp (getDbx dbp)

/-- `run`.  A line without data is left alone, and a line of one word has no differences to
rotate. -/
def run (cacheData : List UInt8) : Option Result :=
  if cacheData = [] then none
  else (encodeWords (convertBinary (rawData cacheData))).map fun output =>
    ⟨output, (output.length + 7) / 8, output.length⟩

end CompressionWork.Bpc
