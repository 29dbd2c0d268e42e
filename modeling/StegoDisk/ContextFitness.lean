import Mathlib.Tactic.Ring
import StegoDisk.Failures
import StegoDisk.Loops

/-!
`fitness/context_fitness.cc`. Of each 3×3 box of a grayscale picture the pixel in the middle is selected when both
values of its lowest bit leave the box varied enough; the places are kept in a list, which no call clears.
-/
namespace StegoDisk

/-- What a fitness function asks its file. -/
structure Picture where
  width : UInt32
  height : UInt32
  isGrayscale : Bool

/-- `MemoryBuffer::Resize`: what is new is zero. -/
def MemoryBuffer.resize (buffer : MemoryBuffer) (newSize : Nat) : Except Failure MemoryBuffer :=
  if newSize = buffer.length then .ok buffer
  else if newSize < addressSpace then .ok (buffer.take newSize ++ List.replicate (newSize - buffer.length) 0)
  else .error (.thrown .badAlloc)

structure ContextFitness where
  file : Picture
  selectedBits : List Nat := []

namespace ContextFitness

/-! ### The code -/

/-- `validity <<= !(a - b)`. -/
def shiftIfEqual (validity a b : UInt8) : UInt8 := validity <<< (if a = b then 1 else 0)

/-- `ContextFitness::CheckSubboxValidity`. -/
def checkSubboxValidity (a b c d : UInt8) : Bool :=
  let validity := shiftIfEqual 1 a b
  let validity := shiftIfEqual validity a c
  let validity := shiftIfEqual validity a d
  let validity := shiftIfEqual validity b c
  let validity := shiftIfEqual validity b d
  let validity := shiftIfEqual validity c d
  !(validity > 2)

/-- The four checks of `CheckValidity` with a value for the pixel in the middle. -/
def checkWith (box : Vector UInt8 9) (centralPixel : UInt8) : Bool :=
  checkSubboxValidity box[0] box[1] box[3] centralPixel && checkSubboxValidity box[1] box[2] centralPixel box[5] &&
    checkSubboxValidity box[3] centralPixel box[6] box[7] && checkSubboxValidity centralPixel box[5] box[7] box[8]

/-- `ContextFitness::CheckValidity`. -/
def checkValidity (box : Vector UInt8 9) : Bool :=
  let centralPixel := box[4] &&& 0xFE
  checkWith box centralPixel && checkWith box (centralPixel ||| 0x01)

/-- `index` in `SelectBytes`. -/
def indexOf (width i j : Nat) : Nat := word64 ((1 + 3 * i) * width + (2 + 3 * j) - 1)

/-- The box around a pixel as `SelectBytes` reads it. -/
def boxAt (image : MemoryBuffer) (width index : Nat) : Except Failure (Vector UInt8 9) := do
  let above := word64 (2 ^ 64 + index - width)
  let below := word64 (index + width)
  let b0 ← image.at (word64 (2 ^ 64 + above - 1))
  let b1 ← image.at above
  let b2 ← image.at (word64 (above + 1))
  let b3 ← image.at (word64 (2 ^ 64 + index - 1))
  let b4 ← image.at index
  let b5 ← image.at (word64 (index + 1))
  let b6 ← image.at (word64 (2 ^ 64 + below - 1))
  let b7 ← image.at below
  let b8 ← image.at (word64 (below + 1))
  .ok #v[b0,b1,b2,b3,b4,b5,b6,b7,b8]

/-- The list with one more place. An empty list takes it at its front; in another it goes behind the end, where
    nothing may be inserted. -/
def addPlace (selectedBits : List Nat) (index : Nat) : Except Failure (List Nat) :=
  if selectedBits.isEmpty then .ok [index] else .error .undefined

/-- The body of the loops of `SelectBytes`. -/
def look (image : MemoryBuffer) (width : Nat) (state : List Nat × Nat) (index : Nat) :
    Except Failure (List Nat × Nat) := do
  let box ← boxAt image width index
  if checkValidity box then
    let selectedBits ← addPlace state.1 index
    .ok (selectedBits,state.2 + 1)
  else .ok state

/-- The last loop of `SelectBytes`. A byte that is assigned to a buffer makes it a buffer of that size, with whatever
    the memory held; the second byte would be assigned to what lies behind the buffer. -/
def copyOut (memory : Nat → UInt8) (image out : MemoryBuffer) : List Nat → Except Failure MemoryBuffer
  | [] => .ok out
  | element::others => do
    let value ← image.at element
    let out ← allocate memory value.toNat
    match others with
    | [] => .ok out
    | next::_ => do
      let _ ← image.at next
      .error .undefined

/-- `ContextFitness::SelectBytes`: the object after it, the caller's buffer, which is gone when the picture is not
    grayscale, and the number that is returned. -/
def selectBytes (memory : Nat → UInt8) (f : ContextFitness) (image out : MemoryBuffer) :
    Except Failure (ContextFitness × Option MemoryBuffer × Nat) :=
  if f.file.isGrayscale then do
    let width := f.file.width.toNat
    let (selectedBits,counter) ← (List.range (f.file.height.toNat / 3)).foldlM (fun state i =>
      (List.range (width / 3)).foldlM (fun state j => look image width state (indexOf width i j)) state) (f.selectedBits,0)
    let out ← out.resize counter
    let out ← copyOut memory image out selectedBits
    .ok ({ f with selectedBits := selectedBits },some out,counter)
  else .ok (f,none,image.length)

/-- The loop of `InsertBytes`. -/
def copyIn (bytes : MemoryBuffer) : Nat → MemoryBuffer → List Nat → Except Failure MemoryBuffer
  | _,out,[] => .ok out
  | index,out,element::others => do
    let value ← bytes.at index
    let _ ← out.at element
    copyIn bytes (index + 1) (out.set element value) others

/-- `ContextFitness::InsertBytes`. -/
def insertBytes (f : ContextFitness) (bytes out : MemoryBuffer) : Except Failure (Option MemoryBuffer) :=
  if f.file.isGrayscale then do
    let out ← out.resize bytes.length
    let out ← copyIn bytes 0 out f.selectedBits
    .ok (some out)
  else .ok none

/-! ### What is selected -/

/-- The rows and columns of the boxes, in the order of the loops. -/
def boxes (file : Picture) : List (Nat × Nat) :=
  (List.range (file.height.toNat / 3)).flatMap fun i => (List.range (file.width.toNat / 3)).map fun j => (i,j)

/-- The pixel of a box that lies so many rows and columns from its first. -/
def pixel (image : MemoryBuffer) (width : Nat) (place : Nat × Nat) (row column : Nat) : UInt8 :=
  image.getD ((3 * place.1 + row) * width + (3 * place.2 + column)) 0

def box (image : MemoryBuffer) (width : Nat) (place : Nat × Nat) : Vector UInt8 9 :=
  let at_ := pixel image width place
  #v[at_ 0 0,at_ 0 1,at_ 0 2,at_ 1 0,at_ 1 1,at_ 1 2,at_ 2 0,at_ 2 1,at_ 2 2]

/-- The place of the pixel in the middle of a box. -/
def middle (width : Nat) (place : Nat × Nat) : Nat := (3 * place.1 + 1) * width + (3 * place.2 + 1)

def selects (image : MemoryBuffer) (width : Nat) (place : Nat × Nat) : Bool := checkValidity (box image width place)

/-- The places of the pixels the rule selects. -/
def chosen (file : Picture) (image : MemoryBuffer) : List Nat :=
  ((boxes file).filter (selects image file.width.toNat)).map (middle file.width.toNat)

variable {memory : Nat → UInt8} {file : Picture} {f : ContextFitness} {image image' : MemoryBuffer} {i j row column : Nat}

theorem mem_boxes {place : Nat × Nat} :
    place ∈ boxes file ↔ place.1 < file.height.toNat / 3 ∧ place.2 < file.width.toNat / 3 := by
  obtain ⟨i,j⟩ := place
  simp only [boxes,List.mem_flatMap,List.mem_range,List.mem_map,Prod.mk.injEq]
  constructor
  · rintro ⟨_,row,_,column,rfl,rfl⟩
    exact ⟨row,column⟩
  · rintro ⟨row,column⟩
    exact ⟨i,row,j,column,rfl,rfl⟩

/-- The rows and columns of a box lie in the picture. -/
theorem pixel_inside {width height : Nat} (below : i < height / 3) (beside : j < width / 3) (rowIn : row < 3)
    (columnIn : column < 3) : (3 * i + row) * width + (3 * j + column) < width * height := by
  have rows : (3 * i + row + 1) * width ≤ height * width := Nat.mul_le_mul_right _ (by omega)
  rw [Nat.succ_mul,Nat.mul_comm height] at rows
  omega

theorem at_pixel {width height : Nat} (size : image.length = width * height) (below : i < height / 3)
    (beside : j < width / 3)
    (rowIn : row < 3) (columnIn : column < 3) :
    image.at (3 * i * width + 3 * j + row * width + column) = .ok (pixel image width (i,j) row column) := by
  have inside := pixel_inside below beside rowIn columnIn
  have same : 3 * i * width + 3 * j + row * width + column = (3 * i + row) * width + (3 * j + column) := by ring
  rw [← size] at inside
  rw [same,MemoryBuffer.at_of_lt inside,pixel]
  congr 1
  exact (List.getElem_eq_getD 0)

theorem middle_eq (width i j : Nat) : middle width (i,j) = 3 * i * width + 3 * j + 1 * width + 1 := by
  rw [middle]
  ring

/-- The loops read the box, and never outside the picture. -/
theorem boxAt_eq {width height : Nat} (wide : width < 2 ^ 32) (high : height < 2 ^ 32)
    (size : image.length = width * height)
    (below : i < height / 3) (beside : j < width / 3) : indexOf width i j = middle width (i,j) ∧
      boxAt image width (indexOf width i j) = .ok (box image width (i,j)) := by
  have fits : width * height ≤ 2 ^ 32 * 2 ^ 32 := Nat.mul_le_mul (by omega) (by omega)
  have last : (3 * i + 2) * width + (3 * j + 2) < width * height := pixel_inside below beside (by omega) (by omega)
  have read : ∀ row < 3, ∀ column < 3, image.at (3 * i * width + 3 * j + row * width + column) =
      .ok (pixel image width (i,j) row column) := fun row rowIn column columnIn => at_pixel size below beside rowIn columnIn
  rw [Nat.add_mul] at last
  generalize first : 3 * i * width + 3 * j = corner at read
  have index : indexOf width i j = corner + width + 1 := by
    rw [indexOf,Nat.add_mul,word64_of_lt (by omega)]
    omega
  have above : word64 (2 ^ 64 + (corner + width + 1) - width) = corner + 1 := by rw [word64]; omega
  have below : word64 (corner + width + 1 + width) = corner + 2 * width + 1 := by rw [word64]; omega
  have left : ∀ n < 2 ^ 64 - 1, word64 (2 ^ 64 + (n + 1) - 1) = n := fun n small => by rw [word64]; omega
  have right : ∀ n < 2 ^ 64 - 2, word64 (n + 1 + 1) = n + 2 := fun n small => by rw [word64]; omega
  constructor
  · rw [index,middle_eq,first]
    omega
  · rw [index]
    simp only [boxAt,above,below,left corner (by omega),left (corner + width) (by omega),left (corner + 2 * width) (by omega),
      right corner (by omega),right (corner + width) (by omega),right (corner + 2 * width) (by omega)]
    have top : ∀ column < 3, image.at (corner + column) = .ok (pixel image width (i,j) 0 column) := by simpa using read 0 (by omega)
    have centre : ∀ column < 3, image.at (corner + width + column) = .ok (pixel image width (i,j) 1 column) := by
      simpa using read 1 (by omega)
    have bottom : ∀ column < 3, image.at (corner + 2 * width + column) = .ok (pixel image width (i,j) 2 column) := read 2 (by omega)
    simp only [show image.at corner = _ from top 0 (by omega),top 1 (by omega),top 2 (by omega),
      show image.at (corner + width) = _ from centre 0 (by omega),centre 1 (by omega),centre 2 (by omega),
      show image.at (corner + 2 * width) = _ from bottom 0 (by omega),bottom 1 (by omega),bottom 2 (by omega),ok_bind,box]

/-- Where one pixel is selected. -/
def select (state : List Nat × Nat) (index : Nat) : Except Failure (List Nat × Nat) := do
  let selectedBits ← addPlace state.1 index
  .ok (selectedBits,state.2 + 1)

theorem look_eq {width height : Nat} (wide : width < 2 ^ 32) (high : height < 2 ^ 32)
    (size : image.length = width * height)
    (state : List Nat × Nat) {place : Nat × Nat} (below : place.1 < height / 3) (beside : place.2 < width / 3) :
    look image width state (indexOf width place.1 place.2) =
      if selects image width place then select state (middle width place) else .ok state := by
  obtain ⟨index,read⟩ := boxAt_eq wide high size below beside
  rw [look,read,ok_bind,index]
  rfl

/-- The loops of `SelectBytes` come to the places the rule selects. -/
theorem loops_eq (size : image.length = file.width.toNat * file.height.toNat) (state : List Nat × Nat) :
    (List.range (file.height.toNat / 3)).foldlM (fun state i => (List.range (file.width.toNat / 3)).foldlM (fun state j =>
      look image file.width.toNat state (indexOf file.width.toNat i j)) state) state =
    (chosen file image).foldlM select state := by
  rw [Loops.foldlM_nested (fun state i j => look image file.width.toNat state (indexOf file.width.toNat i j)),chosen]
  have inside : ∀ place ∈ boxes file, place.1 < file.height.toNat / 3 ∧ place.2 < file.width.toNat / 3 := fun _ => mem_boxes.mp
  rw [← boxes]
  generalize boxes file = places at inside
  induction places generalizing state with
  | nil => rfl
  | cons place places ih =>
    obtain ⟨below,beside⟩ := inside place List.mem_cons_self
    have rest := fun state => ih state fun place member => inside place (List.mem_cons_of_mem _ member)
    rw [List.foldlM_cons,look_eq file.width.toNat_lt file.height.toNat_lt size state below beside]
    by_cases valid : selects image file.width.toNat place
    · rw [List.filter_cons_of_pos valid,List.map_cons,List.foldlM_cons,if_pos valid]
      exact bind_congr rest
    · rw [List.filter_cons_of_neg valid,if_neg valid,ok_bind,rest]

/-! ### What the calls do -/

/-- With nothing selected the buffer stays empty. -/
theorem selectBytes_none (gray : file.isGrayscale) (size : image.length = file.width.toNat * file.height.toNat)
    (none_ : chosen file image = []) : selectBytes memory { file } image [] = .ok ({ file },some [],0) := by
  simp only [selectBytes,gray,if_true,loops_eq size,none_]
  rfl

/-- One pixel makes the buffer as large as the pixel is bright. -/
theorem selectBytes_one (gray : file.isGrayscale) (size : image.length = file.width.toNat * file.height.toNat)
    {place : Nat}
    (one : chosen file image = [place]) {value : UInt8} (there : image.at place = .ok value) :
    selectBytes memory { file } image [] =
      .ok ({ file, selectedBits := [place] },some ((List.range value.toNat).map memory),1) := by
  have small : value.toNat < addressSpace := by
    have := value.toNat_lt
    rw [addressSpace]
    omega
  have added : [place].foldlM select ([],0) = .ok ([place],1) := rfl
  have sized : MemoryBuffer.resize [] 1 = .ok [0] := rfl
  simp only [selectBytes,gray,if_true,loops_eq size,one,added,ok_bind,sized,copyOut,there,allocate,small]

/-- A second pixel goes behind the end of the list. -/
theorem selectBytes_many (gray : f.file.isGrayscale) (size : image.length = f.file.width.toNat * f.file.height.toNat)
    (many : 2 ≤ f.selectedBits.length + (chosen f.file image).length) (some_ : chosen f.file image ≠ [])
    (out : MemoryBuffer) :
    selectBytes memory f image out = .error .undefined := by
  have added : (chosen f.file image).foldlM select (f.selectedBits,0) = .error .undefined := by
    generalize chosen f.file image = places at many some_
    generalize f.selectedBits = kept at many
    obtain ⟨place,places,rfl⟩ := List.exists_cons_of_ne_nil some_
    cases kept with
    | cons first kept => rfl
    | nil =>
      cases places with
      | nil => simp at many
      | cons second places => rfl
  simp only [selectBytes,gray,if_true,loops_eq size,added]
  rfl

/-- What was selected from the second row on cannot be put into a single byte. -/
theorem insertBytes_one (gray : file.isGrayscale) {place : Nat} (behind : 0 < place) (byte : UInt8) :
    insertBytes { file, selectedBits := [place] } [byte] [] =
      .error (.thrown (.outOfRange "MemoryBuffer: index out of range")) := by
  have sized : MemoryBuffer.resize [] [byte].length = .ok [0] := rfl
  have outside : MemoryBuffer.at [0] place = .error (.thrown (.outOfRange "MemoryBuffer: index out of range")) := by
    rw [MemoryBuffer.at,List.getElem?_eq_none (show 1 ≤ place from behind)]
  simp only [insertBytes,gray,if_true,sized,ok_bind,copyIn,outside]
  rfl

theorem insertBytes_none (gray : file.isGrayscale) : insertBytes { file } [] [] = .ok (some []) := by
  simp only [insertBytes,gray,if_true]
  rfl

/-! ### Selecting, changing and inserting -/

/-- The image with the bytes at the places replaced. -/
def replaced (image : MemoryBuffer) (places : List Nat) (bytes : List UInt8) : MemoryBuffer :=
  (places.zip bytes).foldl (fun image change => image.set change.1 change.2) image

/-- Bytes that differ in their lowest bits alone. -/
def SameButLowest (before after : List UInt8) : Prop := List.Forall₂ (fun a b => a &&& 0xFE = b &&& 0xFE) before after

/-- The bytes of the places that are selected come back in their order; with their lowest bits changed they can be
    inserted, into the image they came from but for these bits, and from there the same places are selected and the
    changed bytes come back. -/
def Invertible (memory : Nat → UInt8) (file : Picture) (image : MemoryBuffer) : Prop :=
  ∃ f bytes, selectBytes memory { file } image [] = .ok (f,some bytes,bytes.length) ∧
    f.selectedBits.map (fun place => image.getD place 0) = bytes ∧
    ∀ changed, SameButLowest bytes changed →
      f.insertBytes changed [] = .ok (some (replaced image f.selectedBits changed)) ∧
      ∃ f', f.selectBytes memory (replaced image f.selectedBits changed) [] = .ok (f',some changed,changed.length) ∧
        f'.selectedBits = f.selectedBits

theorem mem_chosen (size : image.length = file.width.toNat * file.height.toNat) {place : Nat}
    (member : place ∈ chosen file image) :
    0 < place ∧ place < image.length := by
  obtain ⟨⟨i,j⟩,selected,rfl⟩ := List.mem_map.mp member
  obtain ⟨below,beside⟩ := mem_boxes.mp (List.mem_filter.mp selected).1
  exact ⟨Nat.succ_pos _,(pixel_inside below beside (by omega) (by omega)).trans_eq size.symm⟩

theorem chosen_empty (empty : file.width.toNat * file.height.toNat = 0) : chosen file image = [] := by
  rw [chosen,boxes]
  rcases Nat.mul_eq_zero.mp empty with narrow | low
  · simp [narrow]
  · simp [low]

/-- A picture survives selecting and inserting exactly when it has no pixels. -/
theorem invertible_iff (memory : Nat → UInt8) (gray : file.isGrayscale)
    (size : image.length = file.width.toNat * file.height.toNat) :
    Invertible memory file image ↔ file.width.toNat * file.height.toNat = 0 := by
  constructor
  · rintro ⟨f,bytes,selected,back,survives⟩
    have same : SameButLowest bytes bytes := List.forall₂_same.mpr fun _ _ => rfl
    obtain ⟨inserted,-⟩ := survives bytes same
    rcases places : chosen file image with _ | ⟨place,_ | ⟨second,others⟩⟩
    · -- the image that comes back is empty
      rw [selectBytes_none gray size places] at selected
      cases selected
      rw [insertBytes_none gray] at inserted
      cases inserted
      exact size.symm
    · obtain ⟨behind,inside⟩ := mem_chosen size (places ▸ List.mem_singleton_self place)
      rw [selectBytes_one gray size places (MemoryBuffer.at_of_lt inside)] at selected
      simp only [Except.ok.injEq,Prod.mk.injEq] at selected
      obtain ⟨rfl,-,-⟩ := selected
      obtain rfl := back
      rw [List.map_singleton,insertBytes_one gray behind] at inserted
      cases inserted
    · rw [selectBytes_many gray size (by simp [places]) (by simp [places])] at selected
      cases selected
  · intro empty
    obtain rfl : image = [] := List.length_eq_zero_iff.mp (size.trans empty)
    refine ⟨{ file },[],selectBytes_none gray size (chosen_empty empty),rfl,fun changed same => ?_⟩
    obtain rfl := List.forall₂_nil_left_iff.mp same
    exact ⟨insertBytes_none gray,{ file },selectBytes_none gray size (chosen_empty empty),rfl⟩

theorem invertible_nine :
    Invertible (fun _ => 0) ⟨3,3,true⟩ [10,20,30,40,50,60,70,80,90] ↔
      (3 : UInt32).toNat * (3 : UInt32).toNat = 0 :=
  invertible_iff (fun _ => 0) rfl rfl

/-- The pixel in the middle of a picture of one box is 50: a buffer of 50 bytes comes back, and a byte cannot be
    inserted. -/
theorem not_invertible_nine :
    selectBytes (fun _ => 0) { file := ⟨3,3,true⟩ } [10,20,30,40,50,60,70,80,90] [] =
      .ok ({ file := ⟨3,3,true⟩, selectedBits := [4] },some (List.replicate 50 0),1) ∧
    insertBytes { file := ⟨3,3,true⟩, selectedBits := [4] } [51] [] =
      .error (.thrown (.outOfRange "MemoryBuffer: index out of range")) ∧
    ¬ Invertible (fun _ => 0) ⟨3,3,true⟩ [10,20,30,40,50,60,70,80,90] := by
  have selects_ : selectBytes (fun _ => 0) { file := ⟨3,3,true⟩ } [10,20,30,40,50,60,70,80,90] [] =
      .ok ({ file := ⟨3,3,true⟩, selectedBits := [4] },some (List.replicate 50 0),1) := by
    rfl
  refine ⟨selects_,insertBytes_one rfl (by decide) 51,?_⟩
  rintro ⟨f,bytes,selected,back,-⟩
  rw [selects_] at selected
  cases selected

/-! ### The rule is stable -/

/-- The rule does not look at the lowest bit of the pixel in the middle. -/
theorem selects_congr {width : Nat} {place : Nat × Nat}
    (central : pixel image width place 1 1 &&& 0xFE = pixel image' width place 1 1 &&& 0xFE)
    (around : ∀ row < 3, ∀ column < 3, (row,column) ≠ (1,1) → pixel image width place row column = pixel image' width place row column) :
    selects image width place = selects image' width place := by
  have top := around 0 (by decide)
  have left := around 1 (by decide) 0 (by decide) (by decide)
  have right := around 1 (by decide) 2 (by decide) (by decide)
  have bottom := around 2 (by decide)
  simp [selects,box,checkValidity,checkWith,central,left,right,top 0,top 1,top 2,bottom 0,bottom 1,bottom 2]

/-- A pixel of a box is the middle of a box only where it is the middle of its own. -/
theorem middle_unique {width : Nat} {place other : Nat × Nat} (beside : place.2 < width / 3)
    (beside' : other.2 < width / 3)
    (rowIn : row < 3) (columnIn : column < 3)
    (same : (3 * place.1 + row) * width + (3 * place.2 + column) = middle width other) : (row,column) = (1,1) := by
  have quotient : ∀ a b, b < width → (a * width + b) / width = a := fun a b small => by
    rw [Nat.mul_comm,Nat.mul_add_div (by omega),Nat.div_eq_of_lt small,Nat.add_zero]
  have rows := congrArg (· / width) same
  simp only [middle,quotient _ (3 * place.2 + column) (by omega),quotient _ (3 * other.2 + 1) (by omega)] at rows
  rw [middle,rows] at same
  simp only [Prod.mk.injEq]
  omega

/-- Images that differ in the lowest bits of the pixels in the middle of boxes alone. -/
structure Alike (file : Picture) (image image' : MemoryBuffer) : Prop where
  upper : ∀ p, image.getD p 0 &&& 0xFE = image'.getD p 0 &&& 0xFE
  others : ∀ p, p ∉ (boxes file).map (middle file.width.toNat) → image.getD p 0 = image'.getD p 0

/-- In such images the same places are selected. -/
theorem chosen_congr (alike : Alike file image image') : chosen file image = chosen file image' := by
  rw [chosen,chosen]
  congr 1
  refine List.filter_congr fun place member => selects_congr (alike.upper _) fun row rowIn column columnIn different => ?_
  refine alike.others _ fun isMiddle => different ?_
  obtain ⟨other,inBoxes,same⟩ := List.mem_map.mp isMiddle
  exact middle_unique (mem_boxes.mp member).2 (mem_boxes.mp inBoxes).2 rowIn columnIn same.symm

/-- One byte of a middle pixel may be replaced by one that differs in the lowest bit. -/
theorem Alike.set {before : MemoryBuffer} (alike : Alike file before image) {place : Nat} {byte : UInt8}
    (isMiddle : place ∈ (boxes file).map (middle file.width.toNat))
    (same : before.getD place 0 &&& 0xFE = byte &&& 0xFE) :
    Alike file before (image.set place byte) := by
  have elsewhere : ∀ p, p ≠ place → (image.set place byte).getD p 0 = image.getD p 0 := fun p different => by
    rw [List.getD_eq_getElem?_getD,List.getElem?_set_ne different.symm,← List.getD_eq_getElem?_getD]
  constructor
  · intro p
    by_cases here : p = place
    · subst here
      by_cases inside : p < image.length
      · rw [same,List.getD_eq_getElem?_getD,List.getElem?_set_self inside,Option.getD_some]
      · rw [List.set_eq_of_length_le (by omega)]
        exact alike.upper p
    · rw [elsewhere p here]
      exact alike.upper p
  · intro p outside
    rw [elsewhere p fun here => outside (here ▸ isMiddle)]
    exact alike.others p outside

theorem replaced_alike {places : List Nat} {changed : List UInt8} {before : MemoryBuffer}
    (alike : Alike file before image)
    (middles : places ⊆ (boxes file).map (middle file.width.toNat))
    (same : List.Forall₂ (fun place byte => before.getD place 0 &&& 0xFE = byte &&& 0xFE) places changed) :
    Alike file before (replaced image places changed) := by
  induction same generalizing image with
  | nil => exact alike
  | cons first _ ih =>
    exact ih (alike.set (middles List.mem_cons_self) first) (List.subset_of_cons_subset middles)

/-- Where the bytes of the selected places have changed in their lowest bits, the same places are selected again. -/
theorem chosen_replaced {changed : List UInt8}
    (same : SameButLowest ((chosen file image).map fun place => image.getD place 0) changed) :
    chosen file (replaced image (chosen file image) changed) = chosen file image := by
  have middles : chosen file image ⊆ (boxes file).map (middle file.width.toNat) := by
    intro place member
    obtain ⟨box,selected,rfl⟩ := List.mem_map.mp member
    exact List.mem_map_of_mem (List.mem_of_mem_filter selected)
  exact (chosen_congr (replaced_alike ⟨fun _ => rfl,fun _ _ => rfl⟩ middles (List.forall₂_map_left_iff.mp same))).symm

end ContextFitness
end StegoDisk
