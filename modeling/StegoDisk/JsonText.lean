import Mathlib.Data.List.Basic

/-!
`input` of `utils/json.h`: the bytes that are read one by one, the last of which can be put back, with the blanks, the
words and the strings that are read from them, and `serialize_str` of `utils/json_object.h`. What is still to come
(`view`) decides what is read; the rest of the state only counts lines.
-/
namespace StegoDisk.Json
set_option linter.unusedVariables false

/-- `input`. The end of the bytes is `none`. -/
structure Input where
  cur : List UInt8
  lastCh : Option UInt8 := none
  ungot : Bool := false
  line : Nat := 1
  /-- Only a byte is put back. -/
  isByte : ungot = true → lastCh.isSome := by simp

/-- `' '`, `'\\t'`, `'\\n'` or `'\\r'`. -/
def isBlank (ch : UInt8) : Bool := ch = 0x20 || ch = 0x09 || ch = 0x0a || ch = 0x0d

/-- A digit, `'+'`, `'-'`, `'.'`, `'e'` or `'E'`. -/
def isNumeric (ch : UInt8) : Bool :=
  (0x30 ≤ ch && ch ≤ 0x39) || ch = 0x2b || ch = 0x2d || ch = 0x2e || ch = 0x65 || ch = 0x45

namespace Input

/-- The constructor of `input`: everything is still to come. -/
def start (bytes : List UInt8) : Input := { cur := bytes }

/-- The bytes still to come. -/
def view (input : Input) : List UInt8 := if input.ungot then input.lastCh.toList ++ input.cur else input.cur

/-- `input::getc`. -/
def getc (input : Input) : Option UInt8 × Input :=
  if input.ungot then (input.lastCh,{ input with ungot := false, isByte := by simp })
  else
    match input.cur with
    | [] => (none,{ input with lastCh := none, ungot := false, isByte := by simp })
    | ch::cur => (some ch,{ cur, lastCh := some ch, line := if input.lastCh = some 0x0a then input.line + 1 else input.line })

/-- `input::ungetc`. -/
def ungetc (input : Input) : Input :=
  if byte : input.lastCh.isSome then { input with ungot := true, isByte := fun _ => byte } else input

@[simp] theorem getc_fst (input : Input) : input.getc.1 = input.view.head? := by
  rw [getc,view]
  split
  case isTrue put =>
    obtain ⟨ch,same⟩ := Option.isSome_iff_exists.mp (input.isByte put)
    simp [same]
  case isFalse => cases input.cur <;> rfl

@[simp] theorem getc_view (input : Input) : input.getc.2.view = input.view.tail := by
  rw [getc]
  split
  case isTrue put =>
    obtain ⟨ch,same⟩ := Option.isSome_iff_exists.mp (input.isByte put)
    simp [view,put,same]
  case isFalse fresh => cases next : input.cur <;> simp [view,fresh,next]

/-- What was read can be put back. -/
@[simp] theorem getc_ungetc (input : Input) : input.getc.2.ungetc.view = input.view := by
  rw [getc]
  split
  case isTrue put =>
    obtain ⟨ch,same⟩ := Option.isSome_iff_exists.mp (input.isByte put)
    simp [view,ungetc,put,same]
  case isFalse fresh => cases next : input.cur <;> simp [view,ungetc,fresh,next]

theorem getc_shorter {input : Input} {ch : UInt8} (read : input.getc.1 = some ch) :
    input.getc.2.view.length < input.view.length := by
  rw [getc_fst] at read
  rw [getc_view,List.length_tail]
  have := List.length_pos_of_mem (List.mem_of_mem_head? read)
  omega

/-! ### Blanks and words -/

/-- `input::skip_ws`. -/
def skipWs (input : Input) : Input :=
  match read : input.getc.1 with
  | some ch => if isBlank ch then input.getc.2.skipWs else input.getc.2.ungetc
  | none => input.getc.2.ungetc
termination_by input.view.length
decreasing_by exact getc_shorter read

@[simp] theorem skipWs_view (input : Input) : input.skipWs.view = input.view.dropWhile isBlank := by
  fun_induction skipWs input with
  | case1 input ch read blank ih =>
    rw [getc_fst] at read
    obtain ⟨others,whole⟩ := List.head?_eq_some_iff.mp read
    rw [ih,getc_view,whole,List.tail_cons,List.dropWhile_cons_of_pos blank]
  | case2 input ch read other =>
    rw [getc_fst] at read
    obtain ⟨others,whole⟩ := List.head?_eq_some_iff.mp read
    rw [getc_ungetc,whole,List.dropWhile_cons_of_neg other]
  | case3 input read =>
    rw [getc_fst,List.head?_eq_none_iff] at read
    rw [getc_ungetc,read,List.dropWhile_nil]

/-- `input::expect`. -/
def expect (input : Input) (ch : UInt8) : Bool × Input :=
  let input := input.skipWs
  if input.getc.1 ≠ some ch then (false,input.getc.2.ungetc) else (true,input.getc.2)

/-- `input::match`. -/
def match_ (input : Input) : List UInt8 → Bool × Input
  | [] => (true,input)
  | ch::pattern => if input.getc.1 ≠ some ch then (false,input.getc.2.ungetc) else input.getc.2.match_ pattern

theorem skipWs_length (input : Input) : input.skipWs.view.length ≤ input.view.length := by
  rw [skipWs_view]
  exact (List.dropWhile_sublist _).length_le

/-- A byte that was expected is gone. -/
theorem expect_length {input after : Input} {ch : UInt8} {found : Bool} (read : input.expect ch = (found,after)) :
    after.view.length + found.toNat ≤ input.view.length := by
  have skipped := skipWs_length input
  rw [expect] at read
  split at read
  case isTrue =>
    cases read
    rwa [getc_ungetc]
  case isFalse next =>
    cases read
    have shorter := getc_shorter (of_not_not next)
    simp only [Bool.toNat_true]
    omega

theorem match_length {input after : Input} {pattern : List UInt8} (read : input.match_ pattern = (true,after)) :
    after.view.length ≤ input.view.length := by
  induction pattern generalizing input with
  | nil =>
    cases read
    exact Nat.le_refl _
  | cons ch pattern ih =>
    rw [match_] at read
    split at read
    case isTrue => cases read
    case isFalse next =>
      have shorter := getc_shorter (of_not_not next)
      have rest := ih read
      omega

/-- Behind blanks, the byte that is expected is read. -/
theorem expect_ok {input : Input} {ch : UInt8} {others : List UInt8} (next : input.view.dropWhile isBlank = ch::others) :
    ∃ after, input.expect ch = (true,after) ∧ after.view = others := by
  refine ⟨input.skipWs.getc.2,?_,?_⟩
  · simp [expect,next]
  · rw [getc_view,skipWs_view,next,List.tail_cons]

/-- Another byte is put back. -/
theorem expect_other {input : Input} {ch : UInt8} (next : (input.view.dropWhile isBlank).head? ≠ some ch) :
    ∃ after, input.expect ch = (false,after) ∧ after.view = input.view.dropWhile isBlank := by
  refine ⟨input.skipWs.getc.2.ungetc,?_,?_⟩
  · simp [expect,next]
  · rw [getc_ungetc,skipWs_view]

theorem match_ok {input : Input} {pattern others : List UInt8} (next : input.view = pattern ++ others) :
    ∃ after, input.match_ pattern = (true,after) ∧ after.view = others := by
  induction pattern generalizing input with
  | nil => exact ⟨input,rfl,next⟩
  | cons ch pattern ih =>
    have rest : input.getc.2.view = pattern ++ others := by rw [getc_view,next]; rfl
    obtain ⟨after,matched,view⟩ := ih rest
    exact ⟨after,by simp [match_,next,matched],view⟩

end Input

/-! ### Strings -/

/-- The value of a hexadecimal digit. -/
def hexDigit (ch : UInt8) : Option Nat :=
  if 0x30 ≤ ch && ch ≤ 0x39 then some (ch.toNat - 0x30)
  else if 0x41 ≤ ch && ch ≤ 0x46 then some (ch.toNat - 0x41 + 0xa)
  else if 0x61 ≤ ch && ch ≤ 0x66 then some (ch.toNat - 0x61 + 0xa)
  else none

/-- The loop of `_parse_quadhex`, with the digits that are left and the number so far. -/
def quadhexLoop : Nat → Nat → Input → Option Nat × Input
  | 0,uniCh,input => (some uniCh,input)
  | left+1,uniCh,input =>
    match input.getc.1 with
    | none => (none,input.getc.2)
    | some ch =>
      match hexDigit ch with
      | some hex => quadhexLoop left (uniCh * 16 + hex) input.getc.2
      | none => (none,input.getc.2.ungetc)

/-- `_parse_quadhex`. -/
def parseQuadhex (input : Input) : Option Nat × Input := quadhexLoop 4 0 input

/-- What `_parse_codepoint` appends for a number: the bytes of UTF-8. -/
def utf8 (uniCh : Nat) : List UInt8 :=
  if uniCh < 0x80 then [UInt8.ofNat uniCh]
  else
    (if uniCh < 0x800 then [UInt8.ofNat (0xc0 ||| uniCh >>> 6)]
      else (if uniCh < 0x10000 then [UInt8.ofNat (0xe0 ||| uniCh >>> 12)]
          else [UInt8.ofNat (0xf0 ||| uniCh >>> 18),UInt8.ofNat (0x80 ||| (uniCh >>> 12 &&& 0x3f))]) ++
        [UInt8.ofNat (0x80 ||| (uniCh >>> 6 &&& 0x3f))]) ++
      [UInt8.ofNat (0x80 ||| (uniCh &&& 0x3f))]

/-- `_parse_codepoint`. A number in the range of the first halves of pairs is followed by its second half. -/
def parseCodepoint (out : List UInt8) (input : Input) : List UInt8 × Input × Bool :=
  match parseQuadhex input with
  | (none,input) => (out,input,false)
  | (some uniCh,input) =>
    if 0xd800 ≤ uniCh && uniCh ≤ 0xdfff then
      if 0xdc00 ≤ uniCh then (out,input,false)
      else if input.getc.1 ≠ some 0x5c then (out,input.getc.2.ungetc,false)
      else
        let input := input.getc.2
        if input.getc.1 ≠ some 0x75 then (out,input.getc.2.ungetc,false)
        else
          match parseQuadhex input.getc.2 with
          | (none,input) => (out,input,false)
          | (some second,input) =>
            if 0xdc00 ≤ second && second ≤ 0xdfff then
              (out ++ utf8 (((uniCh - 0xd800) <<< 10 ||| ((second - 0xdc00) &&& 0x3ff)) + 0x10000),input,true)
            else (out,input,false)
    else (out ++ utf8 uniCh,input,true)

/-- The byte a letter behind a backslash stands for. -/
def unescape (ch : UInt8) : Option UInt8 :=
  if ch = 0x22 then some 0x22
  else if ch = 0x5c then some 0x5c
  else if ch = 0x2f then some 0x2f
  else if ch = 0x62 then some 0x08
  else if ch = 0x66 then some 0x0c
  else if ch = 0x6e then some 0x0a
  else if ch = 0x72 then some 0x0d
  else if ch = 0x74 then some 0x09
  else none

theorem quadhexLoop_length (left uniCh : Nat) (input : Input) :
    (quadhexLoop left uniCh input).1.isSome → (quadhexLoop left uniCh input).2.view.length ≤ input.view.length := by
  induction left generalizing uniCh input with
  | zero => exact fun _ => Nat.le_refl _
  | succ left ih =>
    rw [quadhexLoop]
    split
    case h_1 => simp
    case h_2 ch read =>
      have shorter := Input.getc_shorter read
      split
      case h_1 hex digit => exact fun some_ => Nat.le_trans (ih _ _ some_) (Nat.le_of_lt shorter)
      case h_2 => simp

/-- A code point that is read leaves no more than was there. -/
theorem parseCodepoint_length {out out' : List UInt8} {input after : Input}
    (read : parseCodepoint out input = (out',after,true)) :
    after.view.length ≤ input.view.length := by
  have first := quadhexLoop_length 4 0 input
  rw [parseCodepoint] at read
  rw [← parseQuadhex] at first
  split at read
  case h_1 => simp at read
  case h_2 uniCh next quad =>
    rw [quad] at first
    have kept : next.view.length ≤ input.view.length := first rfl
    split at read
    case isFalse =>
      cases read
      exact kept
    case isTrue =>
      split at read
      case isTrue => simp at read
      case isFalse =>
        split at read
        case isTrue => simp at read
        case isFalse =>
          dsimp only at read
          split at read
          case isTrue => simp at read
          case isFalse =>
            split at read
            case h_1 => simp at read
            case h_2 second last quad' =>
              have further := quadhexLoop_length 4 0 next.getc.2.getc.2
              rw [← parseQuadhex,quad'] at further
              have rest : last.view.length ≤ next.getc.2.getc.2.view.length := further rfl
              split at read
              case isFalse => simp at read
              case isTrue =>
                cases read
                simp only [Input.getc_view,List.length_tail] at rest
                omega

/-- `_parse_string`. -/
def parseString (out : List UInt8) (input : Input) : List UInt8 × Input × Bool :=
  match read : input.getc.1 with
  | none => (out,input.getc.2.ungetc,false)
  | some ch =>
    if ch < 0x20 then (out,input.getc.2.ungetc,false)
    else if ch = 0x22 then (out,input.getc.2,true)
    else if ch = 0x5c then
      match read' : input.getc.2.getc.1 with
      | none => (out,input.getc.2.getc.2,false)
      | some ch =>
        match unescape ch with
        | some value => parseString (out ++ [value]) input.getc.2.getc.2
        | none =>
          if ch = 0x75 then
            match point : parseCodepoint out input.getc.2.getc.2 with
            | (out,after,true) => parseString out after
            | (out,after,false) => (out,after,false)
          else (out,input.getc.2.getc.2,false)
    else parseString (out ++ [ch]) input.getc.2
termination_by input.view.length
decreasing_by
  · have first := Input.getc_shorter read
    have second := Input.getc_shorter read'
    omega
  · have first := Input.getc_shorter read
    have second := Input.getc_shorter read'
    have third := parseCodepoint_length point
    omega
  · exact Input.getc_shorter read

/-- A string that is read leaves no more than was there. -/
theorem parseString_length {out out' : List UInt8} {input after : Input}
    (ran : parseString out input = (out',after,true)) :
    after.view.length ≤ input.view.length := by
  fun_induction parseString out input with
  | case1 => cases ran
  | case2 => cases ran
  | case3 out input =>
    cases ran
    rw [Input.getc_view,List.length_tail]
    omega
  | case4 => cases ran
  | case5 out input letter second value known first _ _ ih =>
    have shorter := Input.getc_shorter first
    have shorter' := Input.getc_shorter second
    have rest := ih ran
    omega
  | case6 out input out' next point first _ _ second _ ih =>
    have shorter := Input.getc_shorter first
    have shorter' := Input.getc_shorter second
    have digits := parseCodepoint_length point
    have rest := ih ran
    omega
  | case7 => cases ran
  | case8 => cases ran
  | case9 out input ch first _ _ _ ih =>
    have shorter := Input.getc_shorter first
    have rest := ih ran
    omega

/-- A digit of `%04x`. -/
def lowerHex (digit : Nat) : UInt8 := UInt8.ofNat (if digit < 10 then 0x30 + digit else 0x61 + (digit - 10))

/-- What `serialize_str` writes for a byte. -/
def escape (ch : UInt8) : List UInt8 :=
  if ch = 0x22 then [0x5c,0x22]
  else if ch = 0x5c then [0x5c,0x5c]
  else if ch = 0x2f then [0x5c,0x2f]
  else if ch = 0x08 then [0x5c,0x62]
  else if ch = 0x0c then [0x5c,0x66]
  else if ch = 0x0a then [0x5c,0x6e]
  else if ch = 0x0d then [0x5c,0x72]
  else if ch = 0x09 then [0x5c,0x74]
  else if ch < 0x20 || ch = 0x7f then
    [0x5c,0x75,lowerHex (ch.toNat / 4096),lowerHex (ch.toNat / 256 % 16),lowerHex (ch.toNat / 16 % 16),lowerHex (ch.toNat % 16)]
  else [ch]

/-- `serialize_str`. -/
def serializeStr (s : List UInt8) : List UInt8 := 0x22::s.flatMap escape ++ [0x22]

/-! ### What was written is read -/

section Reading

variable {out others : List UInt8} {input : Input} {ch letter : UInt8}

theorem parseString_end (view : input.view = 0x22::others) :
    ∃ after, parseString out input = (out,after,true) ∧ after.view = others := by
  refine ⟨input.getc.2,?_,by rw [Input.getc_view,view]; rfl⟩
  rw [parseString]
  split
  case h_1 none_ => simp [view] at none_
  case h_2 ch read =>
    obtain rfl : 0x22 = ch := by simpa [view] using read
    rfl

theorem parseString_plain (view : input.view = ch::others) (high : ¬ ch < 0x20) (noQuote : ch ≠ 0x22)
    (noBackslash : ch ≠ 0x5c) :
    ∃ after, parseString out input = parseString (out ++ [ch]) after ∧ after.view = others := by
  refine ⟨input.getc.2,?_,by rw [Input.getc_view,view]; rfl⟩
  rw [parseString]
  split
  case h_1 none_ => simp [view] at none_
  case h_2 ch' read =>
    obtain rfl : ch = ch' := by simpa [view] using read
    rw [if_neg high,if_neg noQuote,if_neg noBackslash]

theorem parseString_letter (view : input.view = 0x5c::letter::others) (value : unescape letter = some ch) :
    ∃ after, parseString out input = parseString (out ++ [ch]) after ∧ after.view = others := by
  refine ⟨input.getc.2.getc.2,?_,by rw [Input.getc_view,Input.getc_view,view]; rfl⟩
  rw [parseString]
  split
  case h_1 none_ => simp [view] at none_
  case h_2 ch' read =>
    obtain rfl : 0x5c = ch' := by simpa [view] using read
    rw [if_neg (by decide),if_neg (by decide),if_pos rfl]
    split
    case h_1 none_ => simp [view] at none_
    case h_2 letter' read' =>
      obtain rfl : letter = letter' := by simpa [view] using read'
      rw [value]

/-- Hexadecimal digits are read as the number they stand for. -/
theorem quadhexLoop_ok {digits : List UInt8} {values : List Nat}
    (digit : List.Forall₂ (fun d v => hexDigit d = some v) digits values)
    (uniCh : Nat) {input : Input} (view : input.view = digits ++ others) : ∃ after,
      quadhexLoop digits.length uniCh input = (some (values.foldl (fun n v => n * 16 + v) uniCh),after) ∧ after.view = others := by
  induction digit generalizing uniCh input with
  | nil => exact ⟨input,rfl,view⟩
  | @cons d v ds vs first _ ih =>
    have rest : input.getc.2.view = ds ++ others := by rw [Input.getc_view,view]; rfl
    obtain ⟨after,read,last⟩ := ih (uniCh * 16 + v) rest
    refine ⟨after,?_,last⟩
    have next : input.getc.1 = some d := by rw [Input.getc_fst,view]; rfl
    simp only [List.length_cons,quadhexLoop,next,first,read,List.foldl_cons]

theorem hexDigit_lowerHex : ∀ d < 16, hexDigit (lowerHex d) = some d := by decide

theorem parseCodepoint_ok (low : ch.toNat < 0x80)
    (view : input.view = lowerHex (ch.toNat / 4096)::lowerHex (ch.toNat / 256 % 16)::lowerHex (ch.toNat / 16 % 16)::
      lowerHex (ch.toNat % 16)::others) :
    ∃ after, parseCodepoint out input = (out ++ [ch],after,true) ∧ after.view = others := by
  have digits : List.Forall₂ (fun d v => hexDigit d = some v)
      [lowerHex (ch.toNat / 4096),lowerHex (ch.toNat / 256 % 16),lowerHex (ch.toNat / 16 % 16),lowerHex (ch.toNat % 16)]
      [ch.toNat / 4096,ch.toNat / 256 % 16,ch.toNat / 16 % 16,ch.toNat % 16] :=
    .cons (hexDigit_lowerHex _ (by omega)) (.cons (hexDigit_lowerHex _ (by omega))
      (.cons (hexDigit_lowerHex _ (by omega)) (.cons (hexDigit_lowerHex _ (by omega)) .nil)))
  obtain ⟨after,read,last⟩ := quadhexLoop_ok digits 0 view
  have value : (((0 * 16 + ch.toNat / 4096) * 16 + ch.toNat / 256 % 16) * 16 + ch.toNat / 16 % 16) * 16 + ch.toNat % 16 =
      ch.toNat := by omega
  simp only [List.foldl_cons,List.foldl_nil,value] at read
  refine ⟨after,?_,last⟩
  have quad : parseQuadhex input = (some ch.toNat,after) := read
  have noPair : ¬ 0xd800 ≤ ch.toNat := by omega
  simp [parseCodepoint,quad,noPair,utf8,low]

theorem parseString_code (low : ch.toNat < 0x80)
    (view : input.view = 0x5c::0x75::lowerHex (ch.toNat / 4096)::lowerHex (ch.toNat / 256 % 16)::lowerHex (ch.toNat / 16 % 16)::
      lowerHex (ch.toNat % 16)::others) :
    ∃ after, parseString out input = parseString (out ++ [ch]) after ∧ after.view = others := by
  have rest : input.getc.2.getc.2.view = lowerHex (ch.toNat / 4096)::lowerHex (ch.toNat / 256 % 16)::
      lowerHex (ch.toNat / 16 % 16)::lowerHex (ch.toNat % 16)::others := by
    rw [Input.getc_view,Input.getc_view,view]
    rfl
  obtain ⟨after,point,last⟩ : ∃ after, parseCodepoint out input.getc.2.getc.2 = (out ++ [ch],after,true) ∧ after.view = others :=
    parseCodepoint_ok low rest
  refine ⟨after,?_,last⟩
  rw [parseString]
  split
  case h_1 none_ => simp [view] at none_
  case h_2 ch' read =>
    obtain rfl : 0x5c = ch' := by simpa [view] using read
    rw [if_neg (by decide),if_neg (by decide),if_pos rfl]
    split
    case h_1 none_ => simp [view] at none_
    case h_2 letter' read' =>
      obtain rfl : 0x75 = letter' := by simpa [view] using read'
      have noLetter : unescape 0x75 = none := by decide
      simp only [noLetter,if_true]
      split
      case h_1 read'' =>
        rw [point] at read''
        cases read''
        rfl
      case h_2 read'' =>
        rw [point] at read''
        cases read''

/-- How a byte is written: as it is, with a letter or with its number. -/
theorem escape_cases (ch : UInt8) :
    (escape ch = [ch] ∧ ¬ ch < 0x20 ∧ ch ≠ 0x22 ∧ ch ≠ 0x5c) ∨
    (∃ letter, escape ch = [0x5c,letter] ∧ unescape letter = some ch) ∨
    (escape ch = [0x5c,0x75,lowerHex (ch.toNat / 4096),lowerHex (ch.toNat / 256 % 16),lowerHex (ch.toNat / 16 % 16),
      lowerHex (ch.toNat % 16)] ∧ ch.toNat < 0x80) := by
  by_cases letter : ch ∈ ([0x22,0x5c,0x2f,0x08,0x0c,0x0a,0x0d,0x09] : List UInt8)
  · simp only [List.mem_cons,List.not_mem_nil,or_false] at letter
    refine .inr (.inl ?_)
    rcases letter with rfl | rfl | rfl | rfl | rfl | rfl | rfl | rfl <;> exact ⟨_,rfl,rfl⟩
  · simp only [List.mem_cons,List.not_mem_nil,or_false,not_or] at letter
    obtain ⟨quote,backslash,slash,b,f,n,r,t⟩ := letter
    rw [escape,if_neg quote,if_neg backslash,if_neg slash,if_neg b,if_neg f,if_neg n,if_neg r,if_neg t]
    by_cases control : (ch < 0x20 || ch = 0x7f) = true
    · rw [if_pos control]
      refine .inr (.inr ⟨rfl,?_⟩)
      simp only [Bool.or_eq_true,decide_eq_true_eq] at control
      rcases control with low | rfl
      · have : ch.toNat < 0x20 := low
        omega
      · decide
    · rw [if_neg control]
      simp only [Bool.or_eq_true,decide_eq_true_eq,not_or] at control
      exact .inl ⟨rfl,control.1,quote,backslash⟩

/-- A byte that was written in a string is read. -/
theorem parseString_escape (ch : UInt8) (view : input.view = escape ch ++ others) :
    ∃ after, parseString out input = parseString (out ++ [ch]) after ∧ after.view = others := by
  rcases escape_cases ch with ⟨plain,high,noQuote,noBackslash⟩ | ⟨letter,written,value⟩ | ⟨written,low⟩
  · rw [plain] at view
    exact parseString_plain view high noQuote noBackslash
  · rw [written] at view
    exact parseString_letter view value
  · rw [written] at view
    exact parseString_code low view

/-- Behind its first quote, a string that was written is read. -/
theorem parseString_ok (s : List UInt8) (view : input.view = s.flatMap escape ++ 0x22::others) :
    ∃ after, parseString out input = (out ++ s,after,true) ∧ after.view = others := by
  induction s generalizing out input with
  | nil =>
    rw [List.append_nil]
    exact parseString_end view
  | cons ch s ih =>
    rw [List.flatMap_cons,List.append_assoc] at view
    obtain ⟨after,step,rest⟩ : ∃ after, parseString out input = parseString (out ++ [ch]) after ∧
      after.view = s.flatMap escape ++ 0x22::others := parseString_escape ch view
    obtain ⟨last,read,behind⟩ : ∃ last, parseString (out ++ [ch]) after = (out ++ [ch] ++ s,last,true) ∧ last.view = others :=
      ih rest
    exact ⟨last,by rw [step,read,List.append_assoc,List.singleton_append],behind⟩

end Reading

end StegoDisk.Json
