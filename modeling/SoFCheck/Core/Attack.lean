import SoFCheck.Core.BoardState
import SoFCheck.Core.Mailbox

namespace SoFCheck.Core.Attack

open SoFCheck.Util.Bits
open SoFCheck.Core.Types SoFCheck.Core.Grid SoFCheck.Core.Geometry SoFCheck.Core.NearAttacks
open SoFCheck.Core.Magic SoFCheck.Core.BoardState SoFCheck.Core.Mailbox

def bbDiagPieces (c : Color) (b : Board) : Bitboard :=
  b.bbPieces (makeCell c .bishop) ||| b.bbPieces (makeCell c .queen)

def bbLinePieces (c : Color) (b : Board) : Bitboard :=
  b.bbPieces (makeCell c .rook) ||| b.bbPieces (makeCell c .queen)

/-- The attack map of the other colour, as the attack is traced from its
target. -/
def pawnAttacksTo (c : Color) : Square → Bitboard :=
  if c = .white then blackPawnAttacks else whitePawnAttacks

theorem hasBit_kingAttacks {occ : Square → Bool} {c : Color} {s t : Square} :
    hasBit (kingAttacks s) t = true ↔ Reaches occ c .king s t := by
  simp only [kingAttacks, hasBit_generateDirected, kingOffsets, List.exists_mem_cons_iff,
    List.not_mem_nil, false_and, exists_false, or_false, offset_eq_some_iff, Reaches, rowDist,
    colDist]
  omega

theorem hasBit_knightAttacks {occ : Square → Bool} {c : Color} {s t : Square} :
    hasBit (knightAttacks s) t = true ↔ Reaches occ c .knight s t := by
  simp only [knightAttacks, hasBit_generateDirected, knightOffsets, List.exists_mem_cons_iff,
    List.not_mem_nil, false_and, exists_false, or_false, offset_eq_some_iff, Reaches, rowDist,
    colDist]
  omega

theorem hasBit_pawnAttacks {occ : Square → Bool} {c : Color} {s t : Square} :
    hasBit (generateDirected (pawnOffsets c) s) t = true ↔ Reaches occ c .pawn s t := by
  simp only [hasBit_generateDirected, pawnOffsets, List.exists_mem_cons_iff,
    List.not_mem_nil, false_and, exists_false, or_false, offset_eq_some_iff, Reaches, colDist]
  omega

variable [Globals]

def isCellAttacked (b : Board) (coord : Square) (c : Color) : Bool :=
  if b.bbPieces (makeCell c .pawn) &&& pawnAttacksTo c coord ≠ 0 ∨
      b.bbPieces (makeCell c .king) &&& kingAttacks coord ≠ 0 ∨
      b.bbPieces (makeCell c .knight) &&& knightAttacks coord ≠ 0 then true
  else
    bishopAttackMasked b.bbAll coord (bbDiagPieces c b) != 0 ||
      rookAttackMasked b.bbAll coord (bbLinePieces c b) != 0

def cellAttackers (b : Board) (coord : Square) (c : Color) : Bitboard :=
  (b.bbPieces (makeCell c .pawn) &&& pawnAttacksTo c coord) |||
    (b.bbPieces (makeCell c .king) &&& kingAttacks coord) |||
    (b.bbPieces (makeCell c .knight) &&& knightAttacks coord) |||
    bishopAttackMasked b.bbAll coord (bbDiagPieces c b) |||
    rookAttackMasked b.bbAll coord (bbLinePieces c b)

def isCheck (b : Board) : Bool := isCellAttacked b (kingPos b b.side) (invert b.side)

def wasMoveLegal (b : Board) : Bool := !isCellAttacked b (kingPos b (invert b.side)) b.side

def isAttackedMasked (c : Color) (b : Board) (kingPos : Square) (bbAll bbOursMask : Bitboard) :
    Bool :=
  if ((b.bbPieces (makeCell c .pawn) &&& pawnAttacksTo c kingPos) |||
      (b.bbPieces (makeCell c .king) &&& kingAttacks kingPos) |||
      (b.bbPieces (makeCell c .knight) &&& knightAttacks kingPos)) &&& bbOursMask ≠ 0 then true
  else
    bishopAttackMasked bbAll kingPos (bbDiagPieces c b &&& bbOursMask) != 0 ||
      rookAttackMasked bbAll kingPos (bbLinePieces c b &&& bbOursMask) != 0

section Tables

omit [Globals] in
theorem hasBit_pawnAttacksTo {occ : Square → Bool} {c : Color} {s t : Square} :
    hasBit (pawnAttacksTo c s) t = true ↔ Reaches occ c .pawn t s := by
  rw [reaches_comm, ← hasBit_pawnAttacks]
  cases c <;> rfl

theorem hasBit_bishopAttackBitboard {c : Color} {occ : Bitboard} {s t : Square} :
    hasBit (bishopAttackBitboard occ s) t = true ↔ Reaches (hasBit occ) c .bishop s t :=
  hasBit_attackBitboard _ .bishop occ s t

theorem hasBit_rookAttackBitboard {c : Color} {occ : Bitboard} {s t : Square} :
    hasBit (rookAttackBitboard occ s) t = true ↔ Reaches (hasBit occ) c .rook s t :=
  hasBit_attackBitboard _ .rook occ s t

theorem bishopAttackMasked_eq (occ : Bitboard) (s : Square) (mask : Bitboard) :
    bishopAttackMasked occ s mask = bishopAttackBitboard occ s &&& mask :=
  attackBitboardMasked_eq _ .bishop occ s mask

theorem rookAttackMasked_eq (occ : Bitboard) (s : Square) (mask : Bitboard) :
    rookAttackMasked occ s mask = rookAttackBitboard occ s &&& mask :=
  attackBitboardMasked_eq _ .rook occ s mask

end Tables

section Spec

/-- The five terms of every attack test, over the bitboards `bb` of the
attacking colour and the occupancy `occ`. -/
def attackers (bb : Piece → Bitboard) (occ : Bitboard) (coord : Square) (c : Color) : Bitboard :=
  (bb .pawn &&& pawnAttacksTo c coord) ||| (bb .king &&& kingAttacks coord) |||
    (bb .knight &&& knightAttacks coord) |||
    (bishopAttackBitboard occ coord &&& (bb .bishop ||| bb .queen)) |||
    (rookAttackBitboard occ coord &&& (bb .rook ||| bb .queen))

theorem hasBit_attackers {bb : Piece → Bitboard} {occ : Bitboard} {c : Color} {s t : Square} :
    hasBit (attackers bb occ t c) s = true ↔
      ∃ pc, hasBit (bb pc) s = true ∧ Reaches (hasBit occ) c pc s t := by
  have hk : hasBit (kingAttacks t) s = true ↔ Reaches (hasBit occ) c .king s t := by
    rw [hasBit_kingAttacks, ← reaches_comm]
  have hn : hasBit (knightAttacks t) s = true ↔ Reaches (hasBit occ) c .knight s t := by
    rw [hasBit_knightAttacks, ← reaches_comm]
  have hb : hasBit (bishopAttackBitboard occ t) s = true ↔ Reaches (hasBit occ) c .bishop s t := by
    rw [hasBit_bishopAttackBitboard, ← reaches_comm]
  have hr : hasBit (rookAttackBitboard occ t) s = true ↔ Reaches (hasBit occ) c .rook s t := by
    rw [hasBit_rookAttackBitboard, ← reaches_comm]
  simp only [attackers, hasBit_or, hasBit_and, Bool.or_eq_true, Bool.and_eq_true,
    @hasBit_pawnAttacksTo (hasBit occ), hk, hn, hb, hr]
  constructor
  · rintro ((((h | h) | h) | ⟨h, h' | h'⟩) | ⟨h, h' | h'⟩)
    · exact ⟨.pawn, h⟩
    · exact ⟨.king, h⟩
    · exact ⟨.knight, h⟩
    · exact ⟨.bishop, h', h⟩
    · exact ⟨.queen, h', reaches_queen.mpr (Or.inl h)⟩
    · exact ⟨.rook, h', h⟩
    · exact ⟨.queen, h', reaches_queen.mpr (Or.inr h)⟩
  · rintro ⟨pc, hbb, h⟩
    cases pc with
    | pawn => exact Or.inl (Or.inl (Or.inl (Or.inl ⟨hbb, h⟩)))
    | king => exact Or.inl (Or.inl (Or.inl (Or.inr ⟨hbb, h⟩)))
    | knight => exact Or.inl (Or.inl (Or.inr ⟨hbb, h⟩))
    | bishop => exact Or.inl (Or.inr ⟨h, Or.inl hbb⟩)
    | rook => exact Or.inr ⟨h, Or.inl hbb⟩
    | queen =>
      rcases reaches_queen.mp h with h | h
      · exact Or.inl (Or.inr ⟨h, Or.inr hbb⟩)
      · exact Or.inr ⟨h, Or.inr hbb⟩

theorem cellAttackers_eq (b : Board) (s : Square) (c : Color) :
    cellAttackers b s c = attackers (fun pc => b.bbPieces (makeCell c pc)) b.bbAll s c := by
  rw [cellAttackers, bishopAttackMasked_eq, rookAttackMasked_eq]
  rfl

theorem isCellAttacked_eq (b : Board) (s : Square) (c : Color) :
    isCellAttacked b s c =
      decide (attackers (fun pc => b.bbPieces (makeCell c pc)) b.bbAll s c ≠ 0) := by
  rw [Bool.eq_iff_iff, decide_eq_true_eq, isCellAttacked, bishopAttackMasked_eq,
    rookAttackMasked_eq, bbDiagPieces, bbLinePieces]
  simp only [attackers, Ne, or_eq_zero]
  split
  · rename_i h
    simp only [true_iff]
    rintro ⟨⟨⟨⟨h1, h2⟩, h3⟩, -⟩, -⟩
    exact h.elim (· h1) (·.elim (· h2) (· h3))
  · rename_i h
    simp only [not_or, not_not] at h
    simp only [Bool.or_eq_true, bne_iff_ne, h, true_and, not_and_or, Ne]

theorem isAttackedMasked_eq (c : Color) (b : Board) (s : Square) (bbAll mask : Bitboard) :
    isAttackedMasked c b s bbAll mask =
      decide (attackers (fun pc => b.bbPieces (makeCell c pc) &&& mask) bbAll s c ≠ 0) := by
  have hswap : ∀ x y : Bitboard, x &&& mask &&& y = x &&& y &&& mask := fun x y => by
    rw [BitVec.and_assoc, BitVec.and_comm mask, BitVec.and_assoc]
  have hor : ∀ x y : Bitboard, x &&& mask ||| y &&& mask = (x ||| y) &&& mask := fun x y =>
    hasBit_ext fun i => by simp [Bool.and_or_distrib_right]
  rw [Bool.eq_iff_iff, decide_eq_true_eq, isAttackedMasked, bishopAttackMasked_eq,
    rookAttackMasked_eq, bbDiagPieces, bbLinePieces]
  simp only [attackers, hswap, hor]
  have hor3 : ∀ x y z : Bitboard, x ||| y ||| z ≠ 0 ↔ x ≠ 0 ∨ y ≠ 0 ∨ z ≠ 0 := fun x y z => by
    rw [Ne, or_eq_zero, or_eq_zero, not_and_or, not_and_or, or_assoc]
  rw [hor3]
  split
  · rename_i h
    exact iff_of_true rfl (Or.inl h)
  · rename_i h
    simp only [Bool.or_eq_true, bne_iff_ne, h, false_or]

theorem cellAttackers_ne_zero_iff (b : Board) (s : Square) (c : Color) :
    cellAttackers b s c ≠ 0 ↔ isCellAttacked b s c = true := by
  rw [isCellAttacked_eq, decide_eq_true_eq, cellAttackers_eq]

theorem isCellAttacked_iff {b : Board} {t : Square} {c : Color} :
    isCellAttacked b t c = true ↔
      ∃ s pc, hasBit (b.bbPieces (makeCell c pc)) s = true ∧ Reaches (hasBit b.bbAll) c pc s t := by
  rw [isCellAttacked_eq, decide_eq_true_eq, ne_zero_iff]
  simp only [hasBit_attackers]

theorem isAttackedMasked_iff {c : Color} {b : Board} {t : Square} {bbAll mask : Bitboard} :
    isAttackedMasked c b t bbAll mask = true ↔
      ∃ s pc, (hasBit (b.bbPieces (makeCell c pc)) s = true ∧ hasBit mask s = true) ∧
        Reaches (hasBit bbAll) c pc s t := by
  rw [isAttackedMasked_eq, decide_eq_true_eq, ne_zero_iff]
  simp only [hasBit_attackers, hasBit_and, Bool.and_eq_true]

end Spec

end SoFCheck.Core.Attack
