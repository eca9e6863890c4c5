import SoFCheck.Gameset.Types
import SoFCheck.Util.Ioutil

namespace SoFCheck.Eval.MakeDataset

open SoFCheck.Util.CString SoFCheck.Util.Strutil SoFCheck.Util.Ioutil
open SoFCheck.Core.BoardState SoFCheck.Gameset.Types

structure RichBoard where
  winner : Winner
  gameId : UInt64
  boardsTotal : UInt64
  boardsLeft : UInt64
  board : Board

/-- A row of the dataset. -/
def row (fields : List (List Byte)) : List Byte :=
  [(',' : Byte)].intercalate fields ++ [('\n' : Byte)]

/-- The line that names the columns. -/
def header (names : List (List Byte)) : List Byte :=
  row ([bytes "winner", bytes "game_id", bytes "board_total", bytes "board_left"] ++ names)

section Lines

/-- The text that `putHeader` builds. -/
def putHeader (names : List (List Byte)) : List Byte :=
  names.foldl (fun result name => result ++ (bytes "," ++ name))
    (bytes "winner,game_id,board_total,board_left") ++ bytes "\n"

/-- `none` is a panic. -/
def winnerToNumber : Winner → Option (List Byte)
  | .black => some (bytes "0.0")
  | .white => some (bytes "1.0")
  | .draw => some (bytes "0.5")
  | .unknown => none

def unsigned (value : UInt64) : Integer where
  value := value.toNat
  lower := by omega
  upper := by exact_mod_cast value.toNat_lt

def signed (value : Int32) : Integer where
  value := value.toInt
  lower := by
    have h := value.le_toInt
    omega
  upper := by
    have h := value.toInt_lt
    omega

variable (coefs : Board → List Int32)

/-- The line of a board: who won, where the board stands in its game, and its coefficients. -/
def line (b : RichBoard) : List Byte :=
  row ([(winnerToNumber b.winner).getD [], (unsigned b.gameId).text, (unsigned b.boardsTotal).text,
    (unsigned b.boardsLeft).text] ++ (coefs b.board).map fun c => (signed c).text)

/-- The calls of `writeLine`. -/
def writeLine (junk : Nat → Byte) (b : RichBoard) : Option (List Call) :=
  (winnerToNumber b.winner).map fun winner =>
    [.writeStr winner, .writeStr (bytes ","), .writeInt (unsigned b.gameId) junk,
      .writeStr (bytes ","), .writeInt (unsigned b.boardsTotal) junk, .writeStr (bytes ","),
      .writeInt (unsigned b.boardsLeft) junk] ++
    (coefs b.board).flatMap (fun c => [.writeStr (bytes ","), .writeInt (signed c) junk]) ++
    [.writeStr (bytes "\n")]

/-- What a worker does with a batch, from the empty string to the full one. -/
def writeBatch (junk : Nat → Byte) (buf : BufWriter) (batch : List RichBoard) : Option BufWriter := do
  let buf ← batch.foldlM (fun buf b => do run buf (← writeLine coefs junk b))
    { buf with written := [] }
  buf.flush

theorem intercalate_cons (sep x : List Byte) (xs : List (List Byte)) :
    sep.intercalate (x :: xs) = x ++ xs.flatMap (sep ++ ·) := by
  induction xs generalizing x with
  | nil => simp
  | cons y ys ih =>
    rw [List.intercalate_cons_cons, ih, List.flatMap_cons]
    simp only [List.append_assoc]

theorem putHeader_eq (names : List (List Byte)) : putHeader names = header names := by
  have hfold : ∀ result : List Byte, names.foldl (fun result name => result ++ (bytes "," ++ name))
      result = result ++ names.flatMap (bytes "," ++ ·) := by
    induction names with
    | nil => simp
    | cons name names ih =>
      intro result
      rw [List.foldl_cons, ih, List.flatMap_cons, List.append_assoc]
  have hcolumns : [(',' : Byte)].intercalate [bytes "winner", bytes "game_id", bytes "board_total",
      bytes "board_left"] = bytes "winner,game_id,board_total,board_left" := by decide
  rw [putHeader, hfold, header, row, List.cons_append, intercalate_cons, List.flatMap_append]
  rw [← hcolumns, intercalate_cons, ← List.append_assoc]
  rfl

theorem writeLine_spec (junk : Nat → Byte) {b : RichBoard} (hb : b.winner ≠ .unknown) :
    ∃ calls, writeLine coefs junk b = some calls ∧ calls.flatMap Call.text = line coefs b := by
  have hwinner : ∃ winner, winnerToNumber b.winner = some winner := by
    cases h : b.winner with
    | unknown => exact absurd h hb
    | _ => exact ⟨_, rfl⟩
  obtain ⟨winner, hwinner⟩ := hwinner
  refine ⟨_, congrArg (Option.map _) hwinner, ?_⟩
  have hcomma : bytes "," = [(',' : Byte)] := rfl
  have hcoefs : ((coefs b.board).flatMap fun c =>
      [Call.writeStr (bytes ","), Call.writeInt (signed c) junk]).flatMap Call.text =
        ((coefs b.board).map fun c => (signed c).text).flatMap ([(',' : Byte)] ++ ·) := by
    rw [List.flatMap_assoc, List.flatMap_map]
    congr 1
    funext c
    simp only [List.flatMap_cons, List.flatMap_nil, Call.text, List.append_nil, hcomma]
  rw [line, row, hwinner, List.cons_append, intercalate_cons, List.flatMap_append,
    List.flatMap_append, List.flatMap_append, hcoefs]
  simp only [List.flatMap_cons, List.flatMap_nil, Call.text, List.append_nil, hcomma,
    List.append_assoc, Option.getD_some]
  rfl

theorem writeLines_spec (junk : Nat → Byte) {buf : BufWriter} (hbuf : buf.bufPos ≤ bufferSize)
    {batch : List RichBoard} (hbatch : ∀ b ∈ batch, b.winner ≠ .unknown) :
    ∃ buf', batch.foldlM (fun buf b => do run buf (← writeLine coefs junk b)) buf = some buf' ∧
      Delivers buf (batch.flatMap (line coefs)) buf' := by
  induction batch generalizing buf with
  | nil => exact ⟨buf, rfl, (List.append_nil _).symm, hbuf⟩
  | cons b batch ih =>
    obtain ⟨calls, hcalls, htext⟩ := writeLine_spec coefs junk (hbatch b List.mem_cons_self)
    obtain ⟨buf₁, hrun, hd₁⟩ := run_delivers hbuf calls
    obtain ⟨buf₂, hfold, hd₂⟩ := ih hd₁.fits fun b hb => hbatch b (List.mem_cons_of_mem _ hb)
    rw [htext] at hd₁
    refine ⟨buf₂, ?_, hd₁.trans hd₂⟩
    rw [List.foldlM_cons, hcalls]
    change (run buf calls >>= _) = _
    rw [hrun]
    exact hfold

theorem writeBatch_spec (junk : Nat → Byte) {buf : BufWriter} (hbuf : buf.bufPos = 0)
    {batch : List RichBoard} (hbatch : ∀ b ∈ batch, b.winner ≠ .unknown) :
    ∃ buf', writeBatch coefs junk buf batch = some buf' ∧ buf'.bufPos = 0 ∧
      buf'.written = batch.flatMap (line coefs) := by
  have hpos : ({ buf with written := [] } : BufWriter).bufPos ≤ bufferSize := by
    rw [hbuf]
    exact Nat.zero_le _
  obtain ⟨buf₁, hlines, hd⟩ := writeLines_spec coefs junk hpos hbatch
  obtain ⟨buf₂, hflush, -, hzero, hwritten⟩ := flush_spec hd.fits
  refine ⟨buf₂, ?_, hzero, ?_⟩
  · rw [writeBatch, hlines]
    exact hflush
  · have hnone : ({ buf with written := [] } : BufWriter).pending = [] := by
      rw [BufWriter.pending, hbuf]
      rfl
    rw [hwritten, hd.content, hnone]
    rfl

end Lines

end SoFCheck.Eval.MakeDataset
