import SoFCheck.Core.FenGrammar

namespace SoFCheck.Core.FenText

open SoFCheck.Util.CString SoFCheck.Util.Strutil
open SoFCheck.Core.Types SoFCheck.Core.Geometry SoFCheck.Core.BoardState SoFCheck.Core.Strutil
open SoFCheck.Core.Validate SoFCheck.Core.InitialPosition SoFCheck.Core.Fen SoFCheck.Core.FenGrammar

section Rows

theorem exists_empty (empty : Nat) (h : empty ≤ 8) : ∃ runs : List Run,
    (if empty ≠ 0 then [digitChar empty] else []) = runs.map Run.text ∧
      runs.flatMap Run.cells = List.replicate empty emptyCell := by
  by_cases h0 : empty = 0
  · exact ⟨[], by simp [h0], by simp [h0]⟩
  · have hpred : empty - 1 + 1 = empty := by omega
    refine ⟨[.empty ⟨empty - 1, by omega⟩], ?_, ?_⟩
    · simp [h0, Run.text, hpred]
    · simp [Run.cells, hpred]

theorem exists_runs (cells : List Cell) (empty : Nat) (hv : ∀ c ∈ cells, isCellValid c = true)
    (h : empty + cells.length ≤ 8) : ∃ runs : List Run, rowFen cells empty = runs.map Run.text ∧
      runs.flatMap Run.cells = List.replicate empty emptyCell ++ cells := by
  induction cells generalizing empty with
  | nil =>
    obtain ⟨runs, ht, hc⟩ := exists_empty empty (by simpa using h)
    exact ⟨runs, ht, by rw [hc, List.append_nil]⟩
  | cons cur cells ih =>
    rw [List.length_cons] at h
    obtain ⟨hcur, hrest⟩ := List.forall_mem_cons.mp hv
    rw [rowFen]
    split
    · rename_i he
      obtain ⟨runs, ht, hc⟩ := ih (empty + 1) hrest (by omega)
      refine ⟨runs, ht, ?_⟩
      rw [hc, he, List.replicate_succ', List.append_assoc]
      rfl
    · rename_i he
      obtain ⟨c, p, rfl⟩ := (isCellValid_iff.mp hcur).resolve_left he
      obtain ⟨gap, hgt, hgc⟩ := exists_empty empty (by omega)
      obtain ⟨runs, ht, hc⟩ := ih 0 hrest (by omega)
      refine ⟨gap ++ .piece c p :: runs, ?_, ?_⟩
      · rw [hgt, ht, List.map_append, List.map_cons]
        rfl
      · rw [List.flatMap_append, hgc, List.flatMap_cons, hc]
        rfl

theorem cells_rowCells (b : Board) :
    (List.finRange 8).flatMap (rowCells b) = (List.finRange 64).map b.cells := by
  have hgrid : (List.finRange 8).flatMap (fun i : Fin 8 => (List.finRange 8).map fun j : Fin 8 =>
      toSquare (makeCoord (Int8.ofNat i) (Int8.ofNat j))) = List.finRange 64 := by decide
  rw [← hgrid, List.map_flatMap]
  refine congrArg (fun f => List.flatMap f (List.finRange 8)) (funext fun i => ?_)
  rw [List.map_map]
  rfl

theorem exists_rows {b : Board} (hv : ∀ s, isCellValid (b.cells s) = true) :
    ∃ rows : List Row, rows.length = 8 ∧ cellsFen b = Fen.rowsText rows ∧
      rows.flatMap Row.cells = (List.finRange 64).map b.cells := by
  have hrow : ∀ i, ∃ r : Row, rowFen (rowCells b i) 0 = r.text ∧ r.cells = rowCells b i := by
    intro i
    have hlen : (rowCells b i).length = 8 := by simp [rowCells]
    obtain ⟨runs, ht, hc⟩ := exists_runs (rowCells b i) 0 (by
      intro c hc
      obtain ⟨j, -, rfl⟩ := List.mem_map.mp hc
      exact hv _) (by omega)
    exact ⟨⟨runs, by rw [hc]; exact hlen⟩, ht, hc⟩
  choose r ht hc using hrow
  refine ⟨(List.finRange 8).map r, by simp, ?_, ?_⟩
  · simp only [cellsFen, ht]
    rw [List.finRange_succ, List.map_cons, rowsText_cons, List.flatMap_cons]
    simp [tailText, List.flatMap_map, Fin.succ_ne_zero]
  · rw [List.flatMap_map, ← cells_rowCells]
    simp only [hc]

end Rows

section Fields

/-- The letters that the writer puts out, in its order. -/
def rightsOf (x : Castling) : List (Color × Wing) :=
  [(Color.white, Wing.kingside), (.white, .queenside), (.black, .kingside),
    (.black, .queenside)].filter fun r => has (x &&& castlingFlag r.1 r.2)

theorem rightsOf_spec {b : Board} (h : b.castling &&& ~~~Castling.all = 0) :
    (rightsOf b.castling).Nodup ∧ castlingFen b = Fen.castlingText (rightsOf b.castling) ∧
      Fen.flags (rightsOf b.castling) = b.castling := by
  have hall : ∀ x : BitVec 8, x &&& ~~~Castling.all = 0 → (rightsOf x).Nodup ∧
      (if !has x then [('-' : Byte)]
        else letterIf (has (x &&& castlingKingside .white)) 'K' ++
          letterIf (has (x &&& castlingQueenside .white)) 'Q' ++
          letterIf (has (x &&& castlingKingside .black)) 'k' ++
          letterIf (has (x &&& castlingQueenside .black)) 'q') = Fen.castlingText (rightsOf x) ∧
      Fen.flags (rightsOf x) = x := by decide +kernel
  exact hall b.castling h

theorem exists_enpassant {b : Board} (h : b.enpassantCoord = invalidCoord ∨
    coordX b.enpassantCoord = enpassantSrcRow b.side) : ∃ e : Option (Fin 8),
      enpassantFen b = Fen.enpassantText b.side e ∧
      Fen.enpassantCoord b.side e = b.enpassantCoord := by
  have hcol : ∀ (c : BitVec 8) (side : Color), coordX ⟨⟨c⟩⟩ = enpassantSrcRow side →
      (⟨⟨c⟩⟩ : Int8) ≠ invalidCoord ∧ ∃ y : Fin 8, coordY ⟨⟨c⟩⟩ = Int8.ofNat y ∧
        makeCoord (enpassantSrcRow side) (Int8.ofNat y) = ⟨⟨c⟩⟩ := by decide +kernel
  cases h with
  | inl h => exact ⟨none, by rw [enpassantFen, if_pos h]; rfl, h.symm⟩
  | inr h =>
    obtain ⟨hne, y, hy, hc⟩ := hcol b.enpassantCoord.toBitVec b.side h
    refine ⟨some y, ?_, hc⟩
    have hy' : coordY b.enpassantCoord = Int8.ofNat y := hy
    rw [enpassantFen, if_neg (show b.enpassantCoord ≠ invalidCoord from hne), hy']
    rfl

/-- The number that the writer puts out. -/
def counterOf (v : BitVec 16) : Counter where
  text := toChars v.toNat
  nonempty := toChars_ne_nil _
  digits _ h := isDigit_of_mem_toChars h
  bound := by
    rw [numeral_toChars]
    exact Nat.le_of_lt_succ v.isLt

end Fields

section Length

theorem length_runs (runs : List Run) : runs.length ≤ (runs.flatMap Run.cells).length := by
  induction runs with
  | nil => exact Nat.le_refl 0
  | cons run runs ih =>
    have := Run.length_pos run
    rw [List.length_cons, List.flatMap_cons, List.length_append]
    omega

theorem length_row (r : Row) : r.text.length ≤ 8 := by
  have h := length_runs r.runs
  rw [r.full] at h
  rwa [Row.text, List.length_map]

theorem length_rowsText (rows : List Row) : (Fen.rowsText rows).length ≤ 9 * rows.length - 1 := by
  have htail : ∀ rows : List Row, (tailText rows).length ≤ 9 * rows.length := by
    intro rows
    induction rows with
    | nil => exact Nat.le_refl 0
    | cons r rows ih =>
      have hr := length_row r
      rw [tailText] at ih ⊢
      rw [List.flatMap_cons, List.length_append, List.length_cons, List.length_cons]
      omega
  cases rows with
  | nil => exact Nat.le_refl 0
  | cons r rows =>
    have hr := length_row r
    have ht := htail rows
    rw [rowsText_cons, List.length_append, List.length_cons]
    omega

theorem length_castlingText (x : Castling) : (Fen.castlingText (rightsOf x)).length ≤ 4 := by
  have hf : (rightsOf x).length ≤ 4 := List.length_filter_le _ _
  rw [Fen.castlingText]
  split
  · exact Nat.le_add_left 1 3
  · rwa [List.length_map]

theorem length_counterOf (v : BitVec 16) : (counterOf v).text.length ≤ 5 :=
  length_toChars (by decide) (by have := v.isLt; omega)

theorem length_enpassantText (side : Color) (e : Option (Fin 8)) :
    (Fen.enpassantText side e).length ≤ 2 := by
  cases e <;> simp [Fen.enpassantText]

end Length

section RoundTrip

theorem exists_fen {b : Board} (hcells : ∀ s, isCellValid (b.cells s) = true)
    (hcastling : b.castling &&& ~~~Castling.all = 0)
    (hep : b.enpassantCoord = invalidCoord ∨ coordX b.enpassantCoord = enpassantSrcRow b.side) :
    ∃ f : Fen, asFen b = f.text ++ [0] ∧ f.trailing = [] ∧
      f.moveCounter = counterOf b.moveCounter ∧ f.moveNumber = counterOf b.moveNumber ∧
      f.castling = rightsOf b.castling ∧ f.board.cells = b.cells ∧ f.side = b.side ∧
      f.board.castling = b.castling ∧ f.board.enpassantCoord = b.enpassantCoord := by
  obtain ⟨rows, h8, ht, hc⟩ := exists_rows hcells
  obtain ⟨hnd, hct, hfl⟩ := rightsOf_spec hcastling
  obtain ⟨e, het, hec⟩ := exists_enpassant hep
  refine ⟨⟨rows, h8, b.side, rightsOf b.castling, hnd, e, counterOf b.moveCounter,
    counterOf b.moveNumber, [], by simp⟩, ?_, rfl, rfl, rfl, rfl, ?_, rfl, hfl, hec⟩
  · rw [asFen, ht, hct, het]
    simp [Fen.text, sideChar, counterOf]
  · funext s
    simp [Fen.board, Fen.cells, hc]

variable [Globals]

theorem exists_denoting {b : Board} (hcells : ∀ s, isCellValid (b.cells s) = true)
    (hcastling : b.castling &&& ~~~Castling.all = 0)
    (hep : b.enpassantCoord = invalidCoord ∨ coordX b.enpassantCoord = enpassantSrcRow b.side)
    (hunused : b.unused = 0) (hupdate : update b = b) :
    ∃ f : Fen, asFen b = f.text ++ [0] ∧ f.trailing = [] ∧
      f.moveCounter = counterOf b.moveCounter ∧ f.moveNumber = counterOf b.moveNumber ∧
      f.castling = rightsOf b.castling ∧ update f.board = b := by
  obtain ⟨f, ht, htr, hmc, hmn, hr, hc, hs, hca, he⟩ := exists_fen hcells hcastling hep
  have hnumber : ∀ v : BitVec 16, BitVec.ofNat 16 (numeral (counterOf v).text) = v := by
    intro v
    rw [counterOf, numeral_toChars, BitVec.ofNat_toNat, BitVec.setWidth_eq]
  have hboard : update f.board = b := by
    refine (update_congr hc hunused.symm hs hca he ?_ ?_).trans hupdate
    · rw [← hnumber b.moveCounter, ← hmc]
      rfl
    · rw [← hnumber b.moveNumber, ← hmn]
      rfl
  exact ⟨f, ht, htr, hmc, hmn, hr, hboard⟩

/-- A board is read back from what was written of it. -/
theorem fromFen_asFen (board : Board) {b : Board} (hcells : ∀ s, isCellValid (b.cells s) = true)
    (hcastling : b.castling &&& ~~~Castling.all = 0)
    (hep : b.enpassantCoord = invalidCoord ∨ coordX b.enpassantCoord = enpassantSrcRow b.side)
    (hunused : b.unused = 0) (hupdate : update b = b) :
    fromFen board (asFen b) = .ok b ∧ (asFen b).length ≤ bufszBoardFen := by
  obtain ⟨f, ht, htr, hmc, hmn, hr, hboard⟩ :=
    exists_denoting hcells hcastling hep hunused hupdate
  constructor
  · rw [ht, fromFen_text, hboard]
  · have h1 := length_rowsText f.rows
    have h2 := length_castlingText b.castling
    have h3 := length_enpassantText f.side f.enpassant
    have h4 := length_counterOf b.moveCounter
    have h5 := length_counterOf b.moveNumber
    rw [f.eight] at h1
    rw [ht, Fen.text, hr, hmc, hmn, htr]
    simp only [List.length_append, List.length_cons, List.length_nil]
    have : bufszBoardFen = 120 := rfl
    omega

theorem unused_initialPosition : initialPosition.unused = 0 := by
  obtain ⟨h, w, k, a, p, hu, -⟩ := update_spec initialFields
  rw [initialPosition, hu]
  rfl

omit [Globals] in
theorem fromFen_asFen_initial : letI := spreadGlobals
    fromFen initialFields (asFen initialPosition) = .ok initialPosition :=
  letI := spreadGlobals
  (fromFen_asFen initialFields (valid_iff.mp valid_initialPosition).1.cells
    (by rw [initialPosition_fields.2.2.1]; decide) (Or.inl initialPosition_fields.2.2.2.1)
    unused_initialPosition valid_initialPosition.2).1

end RoundTrip

end SoFCheck.Core.FenText
