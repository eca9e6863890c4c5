import SoFCheck.Core.Attack

namespace SoFCheck.Core.Validate

open SoFCheck.Util.Bits
open SoFCheck.Core.Types SoFCheck.Core.Grid SoFCheck.Core.Geometry SoFCheck.Core.BoardState
open SoFCheck.Core.Attack SoFCheck.Core.Mailbox

inductive ValidateResult where
  | ok
  | badData
  | tooManyPieces
  | noKing
  | tooManyKings
  | invalidEnpassantRow
  | invalidPawnPosition
  | opponentKingAttacked
  deriving DecidableEq, Repr

variable [Globals]

/-- The checks of `Board::validate` that need the bitboards. -/
def validateUpdated (b : Board) : ValidateResult :=
  if popcount b.bbWhite > 16 ∨ popcount b.bbBlack > 16 then .tooManyPieces
  else
    let bbWhiteKing := b.bbPieces (makeCell .white .king)
    let bbBlackKing := b.bbPieces (makeCell .black .king)
    if bbWhiteKing = 0 ∨ bbBlackKing = 0 then .noKing
    else if popcount bbWhiteKing ≠ 1 ∨ popcount bbBlackKing ≠ 1 then .tooManyKings
    else
      let bbPawns := b.bbPieces (makeCell .white .pawn) ||| b.bbPieces (makeCell .black .pawn)
      let bbInvalidPawnPos : Bitboard := 0xff000000000000ff
      if bbPawns &&& bbInvalidPawnPos ≠ 0 then .invalidPawnPosition
      else if !wasMoveLegal b then .opponentKingAttacked
      else .ok

/-- The result and the board that the call leaves behind. -/
def validate (b : Board) : ValidateResult × Board :=
  if (List.finRange 64).any fun s => !isCellValid (b.cells s) then (.badData, b)
  else if b.castling &&& Castling.all ≠ b.castling then (.badData, b)
  else if b.enpassantCoord ≠ invalidCoord ∧ (b.enpassantCoord < 0 ∨ b.enpassantCoord ≥ 64) then
    (.badData, b)
  else if b.enpassantCoord ≠ invalidCoord ∧ coordX b.enpassantCoord ≠ enpassantSrcRow b.side then
    (.invalidEnpassantRow, b)
  else
    let b := update b
    (validateUpdated b, b)

def bbCellsWhite : Bitboard := 0xaa55aa55aa55aa55

def bbCellsBlack : Bitboard := 0x55aa55aa55aa55aa

omit [Globals] in
/-- Neither side can give checkmate with what is left. -/
def isBoardDrawInsufficientMaterial (b : Board) : Bool :=
  let bbNoKings :=
    b.bbAll ^^^ (b.bbPieces (makeCell .white .king) ||| b.bbPieces (makeCell .black .king))
  if bbNoKings &&& bbCellsWhite ≠ 0 ∧ bbNoKings &&& bbCellsBlack ≠ 0 then false
  else if bbNoKings = 0 then true
  else
    let bbKnights := b.bbPieces (makeCell .white .knight) ||| b.bbPieces (makeCell .black .knight)
    if bbNoKings = bbKnights ∧ popcount bbKnights = 1 then true
    else
      -- All the pieces that are left stand on cells of one colour.
      let bbBishops := b.bbPieces (makeCell .white .bishop) ||| b.bbPieces (makeCell .black .bishop)
      decide (bbNoKings = bbBishops)

/-- A board that passes `validate` and on which `update` changes nothing. -/
def Valid (b : Board) : Prop := (validate b).1 = .ok ∧ update b = b

section Regular

/-- The checks of `Board::validate` that come before `update`. -/
structure WellTyped (b : Board) : Prop where
  cells : ∀ s, isCellValid (b.cells s) = true
  castlingAll : b.castling &&& Castling.all = b.castling
  enpassantRow : b.enpassantCoord ≠ invalidCoord → 0 ≤ b.enpassantCoord ∧ b.enpassantCoord < 64 ∧
    coordX b.enpassantCoord = enpassantSrcRow b.side

/-- All that makes a board valid, but for the king of the side that has just
moved, which may be attacked. -/
structure Regular (b : Board) : Prop extends WellTyped b where
  enpassantOk : EnpassantOk b
  castlingOk : CastlingOk b
  synced : Synced b
  hash : b.hash = boardHash b
  count : ∀ c, popcount (bbColor b c) ≤ 16
  king : ∀ c, ∃ k, ∀ s, b.cells s = makeCell c .king ↔ s = k
  pawns : ∀ c s, b.cells s = makeCell c .pawn → row s ≠ 0 ∧ row s ≠ 7

omit [Globals] in
theorem hasBit_bbPieces {b : Board} (h : Synced b) {c : Color} {pc : Piece} {s : Square} :
    hasBit (b.bbPieces (makeCell c pc)) s = true ↔ b.cells s = makeCell c pc := by
  rw [h.pieces, decide_eq_true_eq]
  exact ⟨And.right, fun he => ⟨he ▸ makeCell_ne_emptyCell c pc, he⟩⟩

omit [Globals] in
theorem hasBit_invalidPawnPos (s : Square) :
    hasBit (0xff000000000000ff : Bitboard) s = decide (row s = 0 ∨ row s = 7) := by
  revert s
  decide

omit [Globals] in
theorem king_iff {b : Board} (h : Synced b) (c : Color) :
    (∃ k, ∀ s, b.cells s = makeCell c .king ↔ s = k) ↔
      popcount (b.bbPieces (makeCell c .king)) = 1 := by
  simp only [popcount_eq_one_iff, hasBit_bbPieces h]

omit [Globals] in
theorem pawns_iff {b : Board} (h : Synced b) :
    (∀ c s, b.cells s = makeCell c .pawn → row s ≠ 0 ∧ row s ≠ 7) ↔
      (b.bbPieces (makeCell .white .pawn) ||| b.bbPieces (makeCell .black .pawn)) &&&
        (0xff000000000000ff : Bitboard) = 0 := by
  rw [and_eq_zero_iff]
  simp only [hasBit_or, Bool.or_eq_true, hasBit_bbPieces h, hasBit_invalidPawnPos,
    decide_eq_false_iff_not, not_or]
  constructor
  · rintro hp s (hs | hs)
    · exact hp _ s hs
    · exact hp _ s hs
  · rintro hp (_ | _) s hs
    · exact hp s (Or.inl hs)
    · exact hp s (Or.inr hs)

theorem validateUpdated_eq_ok {b : Board} (h : Synced b) : validateUpdated b = .ok ↔
    (∀ c, popcount (bbColor b c) ≤ 16) ∧ (∀ c, ∃ k, ∀ s, b.cells s = makeCell c .king ↔ s = k) ∧
      (∀ c s, b.cells s = makeCell c .pawn → row s ≠ 0 ∧ row s ≠ 7) ∧ wasMoveLegal b = true := by
  have hcolor : ∀ p : Color → Prop, (∀ c, p c) ↔ p .white ∧ p .black := fun p =>
    ⟨fun h => ⟨h _, h _⟩, fun h c => by cases c; exacts [h.1, h.2]⟩
  have hpos : ∀ c, popcount (b.bbPieces (makeCell c .king)) = 1 →
      b.bbPieces (makeCell c .king) ≠ 0 := fun c hc => by
    obtain ⟨i, hi⟩ := popcount_eq_one_iff.mp hc
    exact ne_zero_iff.mpr ⟨i, (hi i).mpr rfl⟩
  simp only [king_iff h, pawns_iff h]
  rw [hcolor, hcolor fun c => popcount (b.bbPieces (makeCell c .king)) = 1, validateUpdated]
  simp only [bbColor, if_true, reduceCtorEq, if_false]
  split_ifs with h1 h2 h3 h4 h5
  · simp only [false_iff]
    omega
  · simp only [false_iff]
    rintro ⟨-, ⟨hw, hk⟩, -⟩
    exact h2.elim (hpos _ hw) (hpos _ hk)
  · simp only [false_iff]
    omega
  · simp only [false_iff]
    rintro ⟨-, -, hp, -⟩
    exact h4 hp
  · simpa using fun _ _ _ _ _ => by simpa using h5
  · simp only [true_iff]
    refine ⟨by omega, by omega, by simpa using h4, by simpa using h5⟩

theorem validate_eq_ok {b : Board} :
    (validate b).1 = .ok ↔ WellTyped b ∧ validateUpdated (update b) = .ok := by
  have hany : ((List.finRange 64).any fun s => !isCellValid (b.cells s)) = true ↔
      ¬∀ s, isCellValid (b.cells s) = true := by simp
  rw [validate]
  constructor
  · intro hv
    split_ifs at hv with h1 h2 h3 h4
    refine ⟨⟨not_not.mp (mt hany.mpr h1), not_not.mp h2, fun he => ?_⟩, hv⟩
    exact ⟨Int8.not_lt.mp fun h => h3 ⟨he, Or.inl h⟩, Int8.not_le.mp fun h => h3 ⟨he, Or.inr h⟩,
      not_not.mp fun h => h4 ⟨he, h⟩⟩
  · rintro ⟨hr, hv⟩
    have h3 : ¬(b.enpassantCoord ≠ invalidCoord ∧
        (b.enpassantCoord < 0 ∨ b.enpassantCoord ≥ 64)) := by
      rintro ⟨he, h⟩
      obtain ⟨h0, h64, -⟩ := hr.enpassantRow he
      exact h.elim (Int8.not_lt.mpr h0) (Int8.not_le.mpr h64)
    have h4 : ¬(b.enpassantCoord ≠ invalidCoord ∧
        coordX b.enpassantCoord ≠ enpassantSrcRow b.side) :=
      fun ⟨he, h⟩ => h (hr.enpassantRow he).2.2
    rw [if_neg (fun h => hany.mp h hr.cells), if_neg (not_not.mpr hr.castlingAll), if_neg h3,
      if_neg h4]
    exact hv

theorem valid_iff {b : Board} : Valid b ↔ Regular b ∧ wasMoveLegal b = true := by
  rw [Valid, validate_eq_ok]
  constructor
  · rintro ⟨⟨hw, hv⟩, hu⟩
    obtain ⟨hep, hc, hs, hh⟩ := update_eq_self_iff.mp hu
    rw [hu] at hv
    obtain ⟨hcnt, hk, hp, hl⟩ := (validateUpdated_eq_ok hs).mp hv
    exact ⟨⟨hw, hep, hc, hs, hh, hcnt, hk, hp⟩, hl⟩
  · rintro ⟨hr, hl⟩
    have hu : update b = b :=
      update_eq_self_iff.mpr ⟨hr.enpassantOk, hr.castlingOk, hr.synced, hr.hash⟩
    refine ⟨⟨hr.toWellTyped, ?_⟩, hu⟩
    rw [hu]
    exact (validateUpdated_eq_ok hr.synced).mpr ⟨hr.count, hr.king, hr.pawns, hl⟩

omit [Globals] in
theorem updateEnpassant_cases (b : Board) :
    (updateEnpassant b).enpassantCoord = b.enpassantCoord ∨
      (updateEnpassant b).enpassantCoord = invalidCoord := by
  simp only [updateEnpassant]
  split_ifs
  · exact Or.inr rfl
  · exact Or.inl rfl
  · exact Or.inl rfl

theorem valid_update {b : Board} (h : (validate b).1 = .ok) : Valid (update b) := by
  obtain ⟨hw, hv⟩ := validate_eq_ok.mp h
  rw [Valid, validate_eq_ok, update_update]
  refine ⟨⟨?_, hv⟩, rfl⟩
  obtain ⟨_, _, _, _, _, hu, -⟩ := update_spec b
  rw [hu]
  refine ⟨hw.cells, hasBit_ext fun i => ?_, fun he => ?_⟩
  · have hi := congrArg (hasBit · i) hw.castlingAll
    simp only [hasBit_and] at hi
    simp only [hasBit_and, hasBit_keptCastling]
    revert hi
    cases hasBit b.castling i <;> simp_all
  · rcases updateEnpassant_cases b with hc | hc
    · rw [hc] at he ⊢
      exact hw.enpassantRow he
    · exact absurd hc he

end Regular

end SoFCheck.Core.Validate
