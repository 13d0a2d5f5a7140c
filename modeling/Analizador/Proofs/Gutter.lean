import Analizador.Gutter

/-! # The numbers in the gutter

A repaint passes over the blocks from the first in view on and stops at the first one that starts
below the repainted rows. Blocks of heights that are not negative start one below the other, so
those that are left out then start below these rows too: what is numbered are the visible blocks
that meet the rows, each where it starts. -/

namespace Analizador.Gutter

/-- The rows from `top` to `bottom` and those of a rectangle meet: neither start below the end of
the others. -/
def Meets (area : Rect) (top bottom : Int) : Prop := top ≤ area.bottom ∧ area.y ≤ bottom

/-- If both have a row, they meet in a row. -/
theorem meets_iff_exists {area : Rect} {top bottom : Int} (harea : 0 < area.height)
    (hblock : top ≤ bottom) :
    Meets area top bottom ↔
      ∃ row, (top ≤ row ∧ row ≤ bottom) ∧ area.y ≤ row ∧ row ≤ area.bottom := by
  unfold Meets Rect.bottom
  constructor
  · rintro ⟨htop, hbottom⟩
    exact ⟨max top area.y, by omega, by omega⟩
  · rintro ⟨row, hrow, hrow'⟩
    omega

/-- Where a block starts, by its index, if the first one starts at `top`: the heights of those
before it further down. -/
def topOf (top : Int) (blocks : List (Int × Bool)) (i : Nat) : Int :=
  (blocks.take i).foldl (fun top block => top + block.1) top

/-- The block of an index is visible, and its rows meet those of a rectangle. -/
def Shows (area : Rect) (top : Int) (blocks : List (Int × Bool)) (i : Nat) : Prop :=
  ∃ height, blocks[i]? = some (height, true) ∧
    Meets area (topOf top blocks i) (topOf top blocks i + height)

variable {area : Rect} {top height : Int} {visible : Bool} {blocks : List (Int × Bool)} {i : Nat}

@[simp] theorem topOf_zero : topOf top blocks 0 = top := rfl

@[simp] theorem topOf_succ :
    topOf top ((height, visible) :: blocks) (i + 1) = topOf (top + height) blocks i := rfl

@[simp] theorem shows_zero :
    Shows area top ((height, visible) :: blocks) 0 ↔
      visible = true ∧ Meets area top (top + height) := by
  simp [Shows, and_assoc]

@[simp] theorem shows_succ :
    Shows area top ((height, visible) :: blocks) (i + 1) ↔ Shows area (top + height) blocks i := by
  simp [Shows]

/-- No block starts above the first one. -/
theorem le_topOf (h : ∀ b ∈ blocks, 0 ≤ b.1) (i : Nat) : top ≤ topOf top blocks i := by
  induction blocks generalizing top i with
  | nil => simp [topOf]
  | cons block rest ih =>
    obtain ⟨hblock, hrest⟩ := List.forall_mem_cons.mp h
    cases i with
    | zero => exact Int.le_refl top
    | succ i =>
      have hle : top + block.1 ≤ topOf (top + block.1) rest i := ih hrest i
      rw [topOf_succ]
      omega

/-- The repaint may stop at a block that starts below the rows: none of the blocks from there on is
shown. -/
theorem not_shows_of_bottom_lt (h : ∀ b ∈ blocks, 0 ≤ b.1) (hbelow : area.bottom < top) (i : Nat) :
    ¬ Shows area top blocks i := by
  rintro ⟨height, -, htop, -⟩
  have hle : top ≤ topOf top blocks i := le_topOf h i
  omega

/-- The indices of the blocks that are shown, in order. -/
structure Listing (area : Rect) (top : Int) (blocks : List (Int × Bool)) (shown : List Nat) :
    Prop where
  increasing : shown.Pairwise (· < ·)
  mem_iff : ∀ i, i ∈ shown ↔ Shows area top blocks i

namespace Listing

variable {shown : List Nat}

theorem nil_of_not_shows (h : ∀ i, ¬ Shows area top blocks i) : Listing area top blocks [] where
  increasing := .nil
  mem_iff i := by simp [h i]

theorem increasing_shift (h : Listing area top blocks shown) :
    (shown.map (· + 1)).Pairwise (· < ·) :=
  List.pairwise_map.mpr (h.increasing.imp Nat.succ_lt_succ)

/-- A block before the others that is shown. -/
theorem cons_shown (h : Listing area (top + height) blocks shown)
    (hmeets : Meets area top (top + height)) :
    Listing area top ((height, true) :: blocks) (0 :: shown.map (· + 1)) where
  increasing := List.pairwise_cons.mpr ⟨by simp, h.increasing_shift⟩
  mem_iff i := by
    cases i with
    | zero => simp [hmeets]
    | succ i => simp [h.mem_iff i]

/-- A block before the others that is not shown. -/
theorem cons_hidden (h : Listing area (top + height) blocks shown)
    (hhidden : ¬ (visible = true ∧ Meets area top (top + height))) :
    Listing area top ((height, visible) :: blocks) (shown.map (· + 1)) where
  increasing := h.increasing_shift
  mem_iff i := by
    cases i with
    | zero => simpa using hhidden
    | succ i => simp [h.mem_iff i]

end Listing

/-- The marks are those of the blocks that are shown. The index, the number and the top go along
with the block. -/
theorem exists_listing_marks (area : Rect) (number : Nat) (top : Int) (blocks : List (Int × Bool))
    (h : ∀ b ∈ blocks, 0 ≤ b.1) :
    ∃ shown, Listing area top blocks shown ∧
      marks area number top blocks = shown.map fun i => ⟨number + i, topOf top blocks i⟩ := by
  induction blocks generalizing number top with
  | nil => exact ⟨[], .nil_of_not_shows (by simp [Shows]), rfl⟩
  | cons b rest ih =>
    obtain ⟨height, visible⟩ := b
    obtain ⟨hheight, hrest⟩ := List.forall_mem_cons.mp h
    obtain ⟨shown, hshown, hmarks⟩ := ih (number + 1) (top + height) hrest
    have hshift : marks area (number + 1) (top + height) rest =
        (shown.map (· + 1)).map fun i => ⟨number + i, topOf top ((height, visible) :: rest) i⟩ := by
      rw [hmarks, List.map_map]
      refine List.map_congr_left fun i _ => ?_
      simp only [Function.comp_apply, topOf_succ, Mark.mk.injEq, and_true]
      omega
    simp only [marks]
    split
    next htop =>
      split
      next hdrawn =>
        obtain ⟨rfl, hbottom⟩ := by simpa using hdrawn
        exact ⟨_, hshown.cons_shown ⟨htop, hbottom⟩, by simp [hshift]⟩
      next hpassed =>
        have hhidden : ¬ (visible = true ∧ Meets area top (top + height)) := by
          rintro ⟨hvisible, -, hbottom⟩
          exact hpassed (by simp [hvisible, hbottom])
        exact ⟨_, hshown.cons_hidden hhidden, hshift⟩
    next htop => exact ⟨[], .nil_of_not_shows (not_shows_of_bottom_lt h (by omega)), rfl⟩

/-- For blocks of any heights that are not negative, the first of which is the one of index `first`
and starts at `top`, a repaint numbers exactly those that are visible and meet the repainted rows,
in order, each by its index and one and where it starts. An editor with these blocks in view draws
the numbers there. -/
theorem paint_numbers (area : Rect) (first : Nat) (top : Int) (blocks : List (Int × Bool))
    (hheights : ∀ b ∈ blocks, 0 ≤ b.1) :
    ∃ shown : List Nat, shown.Pairwise (· < ·) ∧
      (∀ i, i ∈ shown ↔ ∃ height, blocks[i]? = some (height, true) ∧
        Meets area (topOf top blocks i) (topOf top blocks i + height)) ∧
      (0 < area.height → ∀ i height visible, blocks[i]? = some (height, visible) →
        (Meets area (topOf top blocks i) (topOf top blocks i + height) ↔
          ∃ row, (topOf top blocks i ≤ row ∧ row ≤ topOf top blocks i + height) ∧
            area.y ≤ row ∧ row ≤ area.bottom)) ∧
      marks area (first + 1) top blocks = shown.map (fun i => ⟨first + i + 1, topOf top blocks i⟩) ∧
      ∀ e : Editor, e.first = first → e.firstTop = top → e.inView = blocks →
        e.paint area = .fill background :: shown.map fun i =>
          .draw ⟨0, topOf top blocks i, e.gutterWidth, e.lineHeight⟩ .right
            (toString (first + i + 1)) := by
  obtain ⟨shown, hshown, hmarks⟩ := exists_listing_marks area (first + 1) top blocks hheights
  have hnumbers : marks area (first + 1) top blocks =
      shown.map (fun i => ⟨first + i + 1, topOf top blocks i⟩) := by
    simpa only [Nat.add_right_comm] using hmarks
  refine ⟨shown, hshown.increasing, hshown.mem_iff, ?_, hnumbers, ?_⟩
  · intro harea i height visible hblock
    have hheight : 0 ≤ height := hheights _ (List.mem_of_getElem? hblock)
    exact meets_iff_exists harea (by omega)
  · rintro e rfl rfl rfl
    rw [Editor.paint, hnumbers, List.map_map]
    rfl

/-- An editor that is scrolled by two blocks. In view are a block that ends in the first repainted
row, an empty one, a hidden one, one that starts in the last repainted row, and one below. -/
theorem paint_numbers_scrolled :
    let row (height : Nat) (visible : Bool) : TextBlock := ⟨.finite false height 0, visible⟩
    let e : Editor := ⟨[row 4 true, row 1 true, row 5 true, row 0 true, row 7 false, row 3 true,
      row 10 true], 7, 14, 40, ⟨0, 0, 100, 100⟩, ⟨1, 2, 300, 200⟩, 2, .finite true 7 0,
      false, true, 1⟩
    let area : Rect := ⟨0, 3, 40, 8⟩
    e.firstTop = -2 ∧ (∀ b ∈ e.inView, 0 ≤ b.1) ∧
      e.paint area = [.fill background, .draw ⟨0, -2, 40, 14⟩ .right "3",
        .draw ⟨0, 3, 40, 14⟩ .right "4",
        .draw ⟨0, 10, 40, 14⟩ .right "6"] := by
  intro row e area
  have htop : e.firstTop = -2 := by decide +kernel
  have hheights : ∀ b ∈ e.inView, 0 ≤ b.1 := by decide
  obtain ⟨shown, -, -, -, hmarks, hpaint⟩ := paint_numbers area 2 (-2) e.inView hheights
  refine ⟨htop, hheights, ?_⟩
  have hdraws : e.paint area = .fill background :: (marks area 3 (-2) e.inView).map fun m =>
      .draw ⟨0, m.top, 40, 14⟩ .right (toString m.number) := by
    rw [hpaint e rfl htop rfl, hmarks, List.map_map]
    rfl
  rw [hdraws]
  decide +kernel

end Analizador.Gutter
