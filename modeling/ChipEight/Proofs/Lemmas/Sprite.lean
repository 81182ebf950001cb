import Mathlib.Data.List.Nodup
import Mathlib.Data.Set.Defs
import ChipEight.Proofs.Lemmas.Agree
import ChipEight.Proofs.Lemmas.Execute
import ChipEight.Proofs.Lemmas.Halting
import ChipEight.Proofs.Lemmas.Pixels

/-!
# How a sprite is drawn

A draw lowers the flag and then goes through a list of accesses that is settled beforehand (`scan`): whatever is on
the display, it reads the same bytes and flips the same pixels, up to the first access that is refused.
-/

namespace ChipEight

open Effect

namespace Board

/-- Draws one row of a sprite. -/
def drawRow (x y : Int) (row : Nat) : EStateM Fault Board Unit := do
  let sprite ← readByte ((← getI) + row)
  drawByte x (y + row) sprite

/-- The board with the flag lowered. -/
def lowered (b : Board) : Board := { b with processor := b.processor.setV Processor.flagRegister 0 }

theorem draw_eq (vx vy : Register) (rows : Fin 16) (b : Board) :
    draw vx vy rows b =
      (List.range rows).forM (drawRow (b.processor.v.get vx).toNat (b.processor.v.get vy).toNat) b.lowered := rfl

/-! ## Accesses -/

/-- What a draw does with memory and the display. -/
inductive Access
  | read (addr : Int)
  | flip (p : Point)

namespace Access

/-- An access is refused outside memory, and off the display. -/
def fault? (b : Board) : Access → Option Fault
  | read addr => b.memory.fault? addr
  | flip p => if b.display.Contains p.1 p.2 then none else some (b.display.refusal p.1 p.2)

def perform : Access → EStateM Fault Board Unit
  | read addr => do let _ ← readByte addr
  | flip p => Board.flip p.1 p.2

/-- The points at which accesses flip pixels. -/
def points (accesses : List Access) : List Point :=
  accesses.filterMap fun
    | read _ => none
    | flip p => some p

end Access

/-- The accesses of a row of a sprite: the byte is read, and a pixel is flipped for each bit that is set. -/
def scanRow (i : Instruction) (b : Board) (row : Nat) : List Access :=
  let addr := b.processor.i + row
  let columns := (List.range 8).filter fun column => (b.memory.cell addr).toNat.testBit (7 - column)
  .read addr :: columns.map fun column : Nat =>
    .flip ((b.processor.v.get i.x).toNat + column, (b.processor.v.get i.y).toNat + row)

/-- The accesses of a draw that is refused none of them. -/
def scan (i : Instruction) (b : Board) : List Access := (List.range i.n).flatMap (scanRow i b)

/-- The board with one pixel flipped, and the flag raised if the pixel was on. -/
def flipped (b : Board) (p : Point) : Board :=
  { b with
    processor := if b.display.isOn p then b.processor.setV Processor.flagRegister 1 else b.processor
    display := b.display.flip p }

def flipAll (points : List Point) (b : Board) : Board := points.foldl flipped b

variable {i : Instruction} {b b' : Board}

theorem flip_eq (x y : Int) (b : Board) :
    flip x y b =
      if b.display.Contains x y then .ok () (b.flipped (x, y)) else .error (b.display.refusal x y) b := by
  by_cases hc : b.display.Contains x y
  · have hget : getPixel x y b = .ok (b.display.isOn (x, y)) b := by
      simp [getPixel, ask, Display.get, Display.isOn, hc]
    have hset : ∀ p, setPixel x y (!b.display.isOn (x, y)) { b with processor := p } =
        .ok () { b with processor := p, display := b.display.flip (x, y) } := by
      simp [setPixel, onDisplay, Display.set, Display.flip, Display.isOn, hc]
    rw [if_pos hc, flip, bind_of_ok hget, flipped]
    cases hon : b.display.isOn (x, y) with
    | true => rw [hon] at hset; exact hset _
    | false => rw [hon] at hset; exact hset _
  · have hget : getPixel x y b = .error (b.display.refusal x y) b := by
      simp [getPixel, ask, Display.get, hc]
    rw [if_neg hc, flip, bind_of_error hget]

/-- The board after an access that is not refused. -/
def Access.effect (b : Board) : Access → Board
  | read _ => b
  | flip p => b.flipped p

theorem Access.perform_of_allowed {access : Access} (h : access.fault? b = none) :
    access.perform b = .ok ⟨⟩ (access.effect b) := by
  cases access with
  | read addr =>
      have hc : b.memory.Covers addr 1 := Memory.fault?_eq_none_iff.mp h
      have hread : readByte addr b = .ok (b.memory.cell addr) b := by rw [readByte_eq, if_pos hc]
      exact bind_of_ok hread _
  | flip p =>
      have hc : b.display.Contains p.1 p.2 := by simpa [fault?] using h
      rw [perform, flip_eq, if_pos hc, effect]

theorem Access.perform_of_refused {access : Access} {fault : Fault} (h : access.fault? b = some fault) :
    access.perform b = .error fault b := by
  cases access with
  | read addr =>
      obtain ⟨hc, rfl⟩ := Memory.fault?_eq_some_iff.mp h
      have hread : readByte addr b = .error (.outsideMemory addr 1) b := by rw [readByte_eq, if_neg hc]
      exact bind_of_error hread _
  | flip p =>
      obtain ⟨hc, rfl⟩ : ¬ b.display.Contains p.1 p.2 ∧ b.display.refusal p.1 p.2 = fault := by
        simpa [fault?] using h
      rw [perform, flip_eq, if_neg hc]

/-! ## A draw as a list of accesses -/

theorem drawByte_eq (x y : Int) (sprite : Byte) :
    drawByte x y sprite =
      (((List.range 8).filter fun column => sprite.toNat.testBit (7 - column)).map
        fun column : Nat => Access.flip (x + column, y)).forM Access.perform := by
  rw [List.forM_eq_forM, List.forM_map, ← List.forM_eq_forM, forM_filter]
  rfl

theorem drawRow_eq {s : Board} (hmemory : s.memory = b.memory) (hindex : s.processor.i = b.processor.i) (row : Nat) :
    drawRow (b.processor.v.get i.x).toNat (b.processor.v.get i.y).toNat row s =
      (scanRow i b row).forM Access.perform s := by
  have hrow : drawRow (b.processor.v.get i.x).toNat (b.processor.v.get i.y).toNat row s =
      (readByte (b.processor.i + row) >>= fun sprite => drawByte (b.processor.v.get i.x).toNat
        ((b.processor.v.get i.y).toNat + row) sprite) s := by
    rw [← hindex]
    rfl
  rw [hrow]
  show _ = (Access.perform (.read (b.processor.i + row)) >>= fun _ => List.forM _ Access.perform) s
  by_cases hc : s.memory.Covers (b.processor.i + row) 1
  · have hread : readByte (b.processor.i + row) s = .ok (b.memory.cell (b.processor.i + row)) s := by
      rw [readByte_eq, if_pos hc, hmemory]
    have hallowed : (Access.read (b.processor.i + row)).fault? s = none := Memory.fault?_eq_none_iff.mpr hc
    rw [bind_of_ok hread, bind_of_ok (Access.perform_of_allowed hallowed), drawByte_eq]
    rfl
  · have hread : readByte (b.processor.i + row) s = .error (.outsideMemory (b.processor.i + row) 1) s := by
      rw [readByte_eq, if_neg hc]
    have hrefused : (Access.read (b.processor.i + row)).fault? s = some (.outsideMemory (b.processor.i + row) 1) :=
      Memory.fault?_eq_some_iff.mpr ⟨hc, rfl⟩
    rw [bind_of_error hread, bind_of_error (Access.perform_of_refused hrefused)]

/-- A draw goes through its accesses. No pixel that it flips has an influence on those that are still to come. -/
theorem draw_eq_scan (i : Instruction) (b : Board) :
    draw i.x i.y i.n b = (scan i b).forM Access.perform b.lowered := by
  -- all that a row looks at and that a pixel before it might have changed
  let I : Board → Prop := fun s => s.memory = b.memory ∧ s.processor.i = b.processor.i
  have hflag : (Part.register Processor.flagRegister).Closed I := fun _ _ hs => hs
  have hdisplay : Part.display.Closed I := ⟨fun _ hs => hs, fun _ _ _ _ _ hs => hs⟩
  have hobeys : ∀ access, Obeys I Fault.OfAccess (Access.perform access)
    | .read addr => ((readByte_obeys addr).mono fun _ => Or.inl).bind fun _ => Obeys.pure _
    | .flip p => flip_obeys hflag hdisplay p.1 p.2
  rw [draw_eq, scan, forM_flatMap]
  refine forM_congr (I := I) (fun row _ => Obeys.forM _ fun access _ => hobeys access) (fun row _ s hs => ?_) ⟨rfl, rfl⟩
  exact drawRow_eq hs.1 hs.2 row

/-! ## Where a draw halts -/

@[simp] theorem memory_flipAll (points : List Point) (b : Board) : (b.flipAll points).memory = b.memory := by
  induction points generalizing b with
  | nil => rfl
  | cons p rest ih => exact ih (b.flipped p)

@[simp] theorem display_flipAll (points : List Point) (b : Board) :
    (b.flipAll points).display = b.display.flipAll points := by
  induction points generalizing b with
  | nil => rfl
  | cons p rest ih => exact ih (b.flipped p)

theorem Access.fault?_congr (hmemory : b'.memory = b.memory) (hextent : b'.display.extent = b.display.extent)
    (access : Access) : access.fault? b' = access.fault? b := by
  cases access with
  | read addr => rw [fault?, fault?, hmemory]
  | flip p =>
      have hrefusal : b'.display.refusal p.1 p.2 = b.display.refusal p.1 p.2 :=
        congrArg (fun extent : Int × Int => Fault.outsideDisplay p.1 p.2 extent.1 extent.2) hextent
      simp only [fault?, Display.contains_congr hextent, hrefusal]

theorem effect_flipAll (access : Access) (before : List Access) (b : Board) :
    access.effect (b.flipAll (Access.points before)) = b.flipAll (Access.points (before ++ [access])) := by
  cases access with
  | read addr => simp [Access.effect, Access.points]
  | flip p => simp [Access.effect, Access.points, flipAll]

/-- A draw halts at its first access that is refused. The pixels of those before it are flipped. -/
theorem draw_halts (i : Instruction) (b : Board) :
    Halts (fun k => (scan i b)[k]?.bind (Access.fault? b))
      (fun k s => s = b.lowered.flipAll (Access.points ((scan i b).take k))) (scan i b).length ⟨⟩
      (draw i.x i.y i.n b) := by
  rw [draw_eq_scan]
  have hfault : ∀ k (hk : k < (scan i b).length) points,
      (scan i b)[k].fault? (b.lowered.flipAll points) = (scan i b)[k]?.bind (Access.fault? b) := by
    intro k hk points
    rw [List.getElem?_eq_getElem hk]
    exact Access.fault?_congr (by simp [lowered]) (by simp [lowered]) _
  refine halts_forM rfl ?_ ?_
  · rintro k hk _ rfl hnone
    refine ⟨_, Access.perform_of_allowed ((hfault k hk _).trans hnone), ?_⟩
    rw [effect_flipAll, List.take_append_getElem]
  · rintro k hk _ fault rfl hsome
    exact Access.perform_of_refused ((hfault k hk _).trans hsome)

theorem execute_draw_halts (hd : i.family = 0xD) :
    Halts (fun k => (scan i b)[k]?.bind (Access.fault? b))
      (fun k s => s = b.lowered.flipAll (Access.points ((scan i b).take k))) (scan i b).length none
      (execute i b) := by
  have hop : i.operation = .draw i.x i.y i.n := Instruction.operation_of_form (t := .drw) hd nofun nofun
  have hexecute : execute i = proceed (draw i.x i.y i.n) := by
    unfold execute
    rw [hop]
  rw [hexecute]
  exact (draw_halts i b).bind_pure none

/-- The points at which a draw flips pixels before it ends. -/
def reached (i : Instruction) (b : Board) : List Point :=
  Access.points ((scan i b).takeWhile fun access => (access.fault? b).isNone)

theorem outcomeOf_draw (hd : i.family = 0xD) (b : Board) :
    outcomeOf (execute i b) = ((scan i b).findSome? (Access.fault? b)).elim (.ok none) .error :=
  (execute_draw_halts hd).told.1

theorem stateOf_draw (hd : i.family = 0xD) (b : Board) :
    stateOf (execute i b) = b.lowered.flipAll (reached i b) := by
  rw [(execute_draw_halts hd).told.2, reached]
  congr 2
  exact (List.prefix_iff_eq_take.mp (List.takeWhile_prefix _)).symm

/-- The accesses of a draw are those of another draw of as many rows, on a board with the same memory, index and
coordinates. -/
theorem scan_congr {i' : Instruction} (hn : i'.n = i.n) (hmemory : b'.memory = b.memory)
    (hindex : b'.processor.i = b.processor.i) (hx : b'.processor.v.get i'.x = b.processor.v.get i.x)
    (hy : b'.processor.v.get i'.y = b.processor.v.get i.y) : scan i' b' = scan i b := by
  have hrow : scanRow i' b' = scanRow i b := by
    funext row
    simp only [scanRow, hmemory, hindex, hx, hy]
  rw [scan, scan, hrow, hn]

theorem reached_congr {i' : Instruction} (hscan : scan i' b' = scan i b) (hmemory : b'.memory = b.memory)
    (hextent : b'.display.extent = b.display.extent) : reached i' b' = reached i b := by
  rw [reached, reached, hscan, funext (Access.fault?_congr hmemory hextent)]

/-! ## The points of a sprite -/

/-- The points of the sprite that a draw looks at: one for each bit that is set. -/
def sprite (i : Instruction) (b : Board) : Set Point :=
  {p | ∃ row column : Nat, row < i.n ∧ column < 8 ∧
    (b.memory.cell (b.processor.i + row)).toNat.testBit (7 - column) = true ∧
    p = (((b.processor.v.get i.x).toNat + column : Int), ((b.processor.v.get i.y).toNat + row : Int))}

theorem Access.mem_points {accesses : List Access} {p : Point} : p ∈ points accesses ↔ .flip p ∈ accesses := by
  simp only [points, List.mem_filterMap]
  constructor
  · rintro ⟨access, hmem, heq⟩
    cases access with
    | read addr => cases heq
    | flip q => cases heq; exact hmem
  · exact fun hmem => ⟨_, hmem, rfl⟩

theorem read_mem_scan {addr : Int} : .read addr ∈ scan i b ↔ ∃ row : Nat, row < i.n ∧ addr = b.processor.i + row := by
  simp [scan, scanRow]

theorem flip_mem_scan {p : Point} : .flip p ∈ scan i b ↔ p ∈ sprite i b := by
  simp only [scan, scanRow, List.mem_flatMap, List.mem_range, List.mem_cons, List.mem_map, List.mem_filter,
    reduceCtorEq, false_or, Access.flip.injEq]
  constructor
  · rintro ⟨row, hrow, column, ⟨hcolumn, hbit⟩, rfl⟩
    exact ⟨row, column, hrow, hcolumn, hbit, rfl⟩
  · rintro ⟨row, column, hrow, hcolumn, hbit, rfl⟩
    exact ⟨row, hrow, column, ⟨hcolumn, hbit⟩, rfl⟩

theorem points_scanRow (i : Instruction) (b : Board) (row : Nat) :
    Access.points (scanRow i b row) =
      ((List.range 8).filter fun column => (b.memory.cell (b.processor.i + row)).toNat.testBit (7 - column)).map
        fun column : Nat =>
          (((b.processor.v.get i.x).toNat + column : Int), ((b.processor.v.get i.y).toNat + row : Int)) := by
  simp [scanRow, Access.points, List.filterMap_map]

/-- Rows are apart from one another, and so are the columns of a row. -/
theorem nodup_points_scan (i : Instruction) (b : Board) : (Access.points (scan i b)).Nodup := by
  have hrows : Access.points (scan i b) = (List.range i.n).flatMap fun row => Access.points (scanRow i b row) := by
    simp only [scan, Access.points, List.filterMap_flatMap]
  rw [hrows, List.nodup_flatMap]
  constructor
  · intro row _
    rw [points_scanRow]
    refine (List.nodup_range.filter _).map fun column column' heq => ?_
    simp only [Prod.mk.injEq] at heq
    omega
  · refine List.nodup_range.imp fun {row row'} hne p hp hp' => hne ?_
    simp only [points_scanRow] at hp hp'
    obtain ⟨column, -, rfl⟩ := List.mem_map.mp hp
    obtain ⟨column', -, heq⟩ := List.mem_map.mp hp'
    simp only [Prod.mk.injEq] at heq
    omega

theorem nodup_reached (i : Instruction) (b : Board) : (reached i b).Nodup :=
  (nodup_points_scan i b).sublist ((List.takeWhile_sublist _).filterMap _)

/-- Nothing is refused to a draw whose bytes are in memory and whose points are on the display. -/
theorem allowed_scan_iff (hi : 0 ≤ b.processor.i) :
    (∀ access ∈ scan i b, access.fault? b = none) ↔
      (i.n = 0 ∨ b.processor.i + i.n ≤ b.memory.size) ∧ ∀ p ∈ sprite i b, b.display.Contains p.1 p.2 := by
  constructor
  · intro h
    refine ⟨or_iff_not_imp_left.mpr fun hn => ?_, fun p hp => ?_⟩
    · have hpos : 0 < i.n.val := Nat.pos_of_ne_zero fun hzero => hn (Fin.ext hzero)
      have hlast := h _ (read_mem_scan.mpr ⟨i.n - 1, by omega, rfl⟩)
      have hc : b.memory.Covers (b.processor.i + (i.n.val - 1 : Nat)) 1 := Memory.fault?_eq_none_iff.mp hlast
      have := hc.2
      omega
    · simpa [Access.fault?] using h _ (flip_mem_scan.mpr hp)
  · rintro ⟨hrows, hpoints⟩ access hmem
    cases access with
    | flip p => simpa [Access.fault?] using hpoints p (flip_mem_scan.mp hmem)
    | read addr =>
        obtain ⟨row, hrow, rfl⟩ := read_mem_scan.mp hmem
        have hc : b.memory.Covers (b.processor.i + row) 1 := ⟨by omega, by omega⟩
        exact Memory.fault?_eq_none_iff.mpr hc

/-! ## Points that are all different -/

/-- Of points that are all different none is flipped before it is looked at. -/
theorem flipAll_of_nodup {points : List Point} (hnodup : points.Nodup) (b : Board) :
    b.flipAll points =
      { b with
        processor := if points.any b.display.isOn then b.processor.setV Processor.flagRegister 1 else b.processor
        display := b.display.flipAll points } := by
  induction points generalizing b with
  | nil => rfl
  | cons p rest ih =>
      obtain ⟨hp, hrest⟩ := List.nodup_cons.mp hnodup
      -- the point itself does not come again, so the rest of them are as they were before it was flipped
      have hany : rest.any (b.display.flip p).isOn = rest.any b.display.isOn := by
        rw [Bool.eq_iff_iff, List.any_eq_true, List.any_eq_true]
        refine exists_congr fun q => and_congr_right fun hq => ?_
        have hne : p ≠ q := fun heq => hp (heq ▸ hq)
        rw [Display.isOn_flip_of_ne hne]
      have hstep : b.flipAll (p :: rest) = (b.flipped p).flipAll rest := rfl
      rw [hstep, ih hrest, List.any_cons]
      simp only [flipped, hany]
      cases b.display.isOn p <;> cases rest.any b.display.isOn <;>
        simp [Display.flipAll, Processor.setV_setV]

theorem flipAll_lowered {points : List Point} (hnodup : points.Nodup) (b : Board) :
    b.lowered.flipAll points =
      { b with
        processor := b.processor.setV Processor.flagRegister (if points.any b.display.isOn then 1 else 0)
        display := b.display.flipAll points } := by
  have hdisplay : b.lowered.display = b.display := rfl
  rw [flipAll_of_nodup hnodup, hdisplay]
  cases points.any b.display.isOn <;> simp [lowered, Processor.setV_setV]

/-- What a draw leaves: it has flipped the pixels that it came to, and the flag tells whether one of them was on. -/
theorem stateOf_draw_eq (hd : i.family = 0xD) (b : Board) :
    stateOf (execute i b) =
      { b with
        processor := b.processor.setV Processor.flagRegister (if (reached i b).any b.display.isOn then 1 else 0)
        display := b.display.flipAll (reached i b) } := by
  rw [stateOf_draw hd, flipAll_lowered (nodup_reached i b)]

end Board
end ChipEight
