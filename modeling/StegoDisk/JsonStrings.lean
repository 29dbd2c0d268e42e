import Mathlib.Tactic.Ring
import StegoDisk.JsonText

/-!
The strings of JSON. What may stand between two quotes is given by a grammar: bytes that are neither quotes, backslashes nor
control characters, the eight letters behind a backslash, and the characters of Unicode as one number or as a pair of
them, for which their UTF-8 stands. `_parse_string` reads exactly this.
-/
namespace StegoDisk.Json

/-- Four hexadecimal digits and their number. -/
def Quad (digits : List UInt8) (n : Nat) : Prop :=
  digits.length = 4 ∧ ∃ values, List.Forall₂ (fun d v => hexDigit d = some v) digits values ∧
    values.foldl (fun n v => n * 16 + v) 0 = n

/-- What stands between quotes, and the bytes it denotes. -/
inductive StringText : List UInt8 → List UInt8 → Prop
  | nil : StringText [] []
  | plain {ch : UInt8} {others bytes : List UInt8} : ¬ ch < 0x20 → ch ≠ 0x22 → ch ≠ 0x5c → StringText others bytes →
      StringText (ch::others) (ch::bytes)
  | letter {letter ch : UInt8} {others bytes : List UInt8} : unescape letter = some ch → StringText others bytes →
      StringText (0x5c::letter::others) (ch::bytes)
  | point {digits others bytes : List UInt8} (c : Char) : Quad digits c.toNat → StringText others bytes →
      StringText (0x5c::0x75::(digits ++ others)) (String.utf8EncodeChar c ++ bytes)
  | pair {first second others bytes : List UInt8} (c : Char) : 0x10000 ≤ c.toNat →
      Quad first (0xd800 + (c.toNat - 0x10000) / 0x400) → Quad second (0xdc00 + (c.toNat - 0x10000) % 0x400) →
      StringText others bytes →
      StringText (0x5c::0x75::(first ++ 0x5c::0x75::(second ++ others))) (String.utf8EncodeChar c ++ bytes)

/-! ### UTF-8 -/

theorem or_eq_add {mask i a b : Nat} (high : mask = 2 ^ i * a) (low : b < 2 ^ i) : mask ||| b = mask + b := by
  rw [high,Nat.two_pow_add_eq_or_of_lt low]

theorem char_noHalf (c : Char) : ¬ (0xd800 ≤ c.toNat ∧ c.toNat ≤ 0xdfff) := by
  have valid := c.valid
  simp only [UInt32.isValidChar,Nat.isValidChar] at valid
  show ¬ (0xd800 ≤ c.val.toNat ∧ c.val.toNat ≤ 0xdfff)
  omega

theorem char_small (c : Char) : c.toNat < 0x110000 := by
  have valid := c.valid
  simp only [UInt32.isValidChar,Nat.isValidChar] at valid
  show c.val.toNat < 0x110000
  omega

/-- A number that is no half of a pair is that of a character. -/
theorem exists_char {n : Nat} (small : n < 0x110000) (noHalf : ¬ (0xd800 ≤ n ∧ n ≤ 0xdfff)) : ∃ c : Char, c.toNat = n := by
  have valid : n.isValidChar := by
    simp only [Nat.isValidChar]
    omega
  exact ⟨Char.ofNatAux n valid,rfl⟩

/-- The bytes that are appended for a character are its UTF-8. -/
theorem utf8_eq (c : Char) : utf8 c.toNat = String.utf8EncodeChar c := by
  have small := char_small c
  have shift6 : c.toNat >>> 6 = c.toNat / 64 := Nat.shiftRight_eq_div_pow _ _
  have shift12 : c.toNat >>> 12 = c.toNat / 4096 := Nat.shiftRight_eq_div_pow _ _
  have shift18 : c.toNat >>> 18 = c.toNat / 262144 := Nat.shiftRight_eq_div_pow _ _
  have six : ∀ n : Nat, 0x80 ||| (n &&& 0x3f) = n % 0x40 + 0x80 := by
    intro n
    have masked : n &&& 0x3f = n % 0x40 := Nat.and_two_pow_sub_one_eq_mod n 6
    rw [masked,or_eq_add (show 0x80 = 2 ^ 7 * 1 from rfl) (by omega),Nat.add_comm]
  have two : c.toNat < 0x800 → 0xc0 ||| c.toNat / 64 = c.toNat / 64 % 0x20 + 0xc0 := by
    intro below
    rw [or_eq_add (show 0xc0 = 2 ^ 6 * 3 from rfl) (by omega)]
    omega
  have three : c.toNat < 0x10000 → 0xe0 ||| c.toNat / 4096 = c.toNat / 4096 % 0x10 + 0xe0 := by
    intro below
    rw [or_eq_add (show 0xe0 = 2 ^ 5 * 7 from rfl) (by omega)]
    omega
  have four : 0xf0 ||| c.toNat / 262144 = c.toNat / 262144 % 0x08 + 0xf0 := by
    rw [or_eq_add (show 0xf0 = 2 ^ 4 * 15 from rfl) (by omega)]
    omega
  have same : c.val.toNat = c.toNat := rfl
  simp only [utf8,String.utf8EncodeChar,same,six,shift6,shift12,shift18]
  by_cases one : c.toNat < 0x80
  · rw [if_pos one,if_pos (by omega)]
  rw [if_neg one,if_neg (show ¬ c.toNat ≤ 0x7f by omega)]
  by_cases below : c.toNat < 0x800
  · rw [if_pos below,if_pos (show c.toNat ≤ 0x7ff by omega),two below]
    rfl
  rw [if_neg below,if_neg (show ¬ c.toNat ≤ 0x7ff by omega)]
  by_cases narrow : c.toNat < 0x10000
  · rw [if_pos narrow,if_pos (show c.toNat ≤ 0xffff by omega),three narrow]
    rfl
  · rw [if_neg narrow,if_neg (show ¬ c.toNat ≤ 0xffff by omega),four]
    rfl

/-- The number that a pair of halves stands for. -/
theorem pair_value {first second : Nat} (high : second - 0xdc00 < 0x400) :
    ((first - 0xd800) <<< 10 ||| ((second - 0xdc00) &&& 0x3ff)) + 0x10000 =
      (first - 0xd800) * 0x400 + (second - 0xdc00) + 0x10000 := by
  have masked : (second - 0xdc00) &&& 0x3ff = second - 0xdc00 :=
    (Nat.and_two_pow_sub_one_eq_mod _ 10).trans (Nat.mod_eq_of_lt high)
  rw [masked,Nat.shiftLeft_eq]
  exact congrArg (· + 0x10000) (or_eq_add (i := 10) (Nat.mul_comm _ _) high)

/-! ### What is read is a string -/

section Sound

variable {out out' : List UInt8} {input after : Input}

theorem view_of_getc {ch : UInt8} (read : input.getc.1 = some ch) : input.view = ch::input.getc.2.view := by
  rw [Input.getc_fst] at read
  obtain ⟨others,whole⟩ := List.head?_eq_some_iff.mp read
  rw [Input.getc_view,whole,List.tail_cons]

theorem quadhexLoop_inv {left uniCh n : Nat} (ran : quadhexLoop left uniCh input = (some n,after)) :
    ∃ digits values, digits.length = left ∧ List.Forall₂ (fun d v => hexDigit d = some v) digits values ∧
      values.foldl (fun n v => n * 16 + v) uniCh = n ∧ input.view = digits ++ after.view := by
  induction left generalizing uniCh input with
  | zero =>
    obtain ⟨rfl,rfl⟩ : uniCh = n ∧ input = after := by simpa [quadhexLoop] using ran
    exact ⟨[],[],rfl,.nil,rfl,rfl⟩
  | succ left ih =>
    rw [quadhexLoop] at ran
    split at ran
    case h_1 => simp at ran
    case h_2 ch read =>
      split at ran
      case h_2 => simp at ran
      case h_1 hex digit =>
        obtain ⟨digits,values,length,all,value,rest⟩ := ih ran
        exact ⟨ch::digits,hex::values,by rw [List.length_cons,length],.cons digit all,value,by rw [view_of_getc read,rest]; rfl⟩

theorem parseQuadhex_inv {n : Nat} (ran : parseQuadhex input = (some n,after)) :
    ∃ digits, Quad digits n ∧ input.view = digits ++ after.view := by
  obtain ⟨digits,values,length,all,value,rest⟩ := quadhexLoop_inv ran
  exact ⟨digits,⟨length,values,all,value⟩,rest⟩

theorem hexDigit_lt {d : UInt8} {v : Nat} (digit : hexDigit d = some v) : v < 16 := by
  unfold hexDigit at digit
  split at digit
  case isTrue inside =>
    simp only [Bool.and_eq_true,decide_eq_true_eq,UInt8.le_iff_toNat_le] at inside
    obtain rfl := Option.some.inj digit
    have : d.toNat ≤ 0x39 := inside.2
    omega
  case isFalse =>
    split at digit
    case isTrue inside =>
      simp only [Bool.and_eq_true,decide_eq_true_eq,UInt8.le_iff_toNat_le] at inside
      obtain rfl := Option.some.inj digit
      have : d.toNat ≤ 0x46 := inside.2
      omega
    case isFalse =>
      split at digit
      case isTrue inside =>
        simp only [Bool.and_eq_true,decide_eq_true_eq,UInt8.le_iff_toNat_le] at inside
        obtain rfl := Option.some.inj digit
        have : d.toNat ≤ 0x66 := inside.2
        omega
      case isFalse => cases digit

/-- Each digit stands for four bits. -/
theorem foldl_small {digits : List UInt8} {values : List Nat}
    (all : List.Forall₂ (fun d v => hexDigit d = some v) digits values) (n : Nat) :
    values.foldl (fun n v => n * 16 + v) n < (n + 1) * 16 ^ digits.length := by
  induction all generalizing n with
  | nil =>
    simp only [List.foldl_nil,List.length_nil,Nat.pow_zero]
    omega
  | @cons d v digits values digit _ ih =>
    have small := hexDigit_lt digit
    rw [List.foldl_cons,List.length_cons]
    calc values.foldl (fun n v => n * 16 + v) (n * 16 + v)
        < (n * 16 + v + 1) * 16 ^ digits.length := ih _
      _ ≤ ((n + 1) * 16) * 16 ^ digits.length := Nat.mul_le_mul_right _ (by omega)
      _ = (n + 1) * 16 ^ (digits.length + 1) := by rw [Nat.pow_succ',Nat.mul_assoc]

theorem Quad.small {digits : List UInt8} {n : Nat} (quad : Quad digits n) : n < 0x10000 := by
  obtain ⟨length,values,all,rfl⟩ := quad
  have below := foldl_small all 0
  rwa [length] at below

/-- A code point that was read is a character, given by one number or by two. -/
theorem parseCodepoint_inv (ran : parseCodepoint out input = (out',after,true)) :
    ∃ c : Char, out' = out ++ String.utf8EncodeChar c ∧
      ((∃ digits, Quad digits c.toNat ∧ input.view = digits ++ after.view) ∨
        ∃ first second, 0x10000 ≤ c.toNat ∧ Quad first (0xd800 + (c.toNat - 0x10000) / 0x400) ∧
          Quad second (0xdc00 + (c.toNat - 0x10000) % 0x400) ∧ input.view = first ++ 0x5c::0x75::(second ++ after.view)) := by
  rw [parseCodepoint] at ran
  split at ran
  case h_1 => simp at ran
  case h_2 uniCh next quad =>
    obtain ⟨first,isQuad,rest⟩ := parseQuadhex_inv quad
    have small := isQuad.small
    split at ran
    case isFalse other =>
      simp only [Bool.and_eq_true,decide_eq_true_eq] at other
      obtain ⟨c,rfl⟩ := exists_char (n := uniCh) (by omega) other
      obtain ⟨rfl,rfl,-⟩ : out ++ utf8 c.toNat = out' ∧ next = after ∧ True := by simpa using ran
      exact ⟨c,by rw [utf8_eq],.inl ⟨first,isQuad,rest⟩⟩
    case isTrue half =>
      simp only [Bool.and_eq_true,decide_eq_true_eq] at half
      split at ran
      case isTrue => simp at ran
      case isFalse low =>
        split at ran
        case isTrue => simp at ran
        case isFalse backslash =>
          dsimp only at ran
          split at ran
          case isTrue => simp at ran
          case isFalse letter =>
            split at ran
            case h_1 => simp at ran
            case h_2 second last quad' =>
              obtain ⟨digits,isQuad',rest'⟩ := parseQuadhex_inv quad'
              split at ran
              case isFalse => simp at ran
              case isTrue half' =>
                simp only [Bool.and_eq_true,decide_eq_true_eq] at half'
                rw [pair_value (by omega)] at ran
                obtain ⟨c,value⟩ := exists_char (n := (uniCh - 0xd800) * 0x400 + (second - 0xdc00) + 0x10000)
                  (by omega) (by omega)
                rw [← value,utf8_eq] at ran
                obtain ⟨rfl,rfl,-⟩ : out ++ String.utf8EncodeChar c = out' ∧ last = after ∧ True := by simpa using ran
                refine ⟨c,rfl,.inr ⟨first,digits,by omega,?_,?_,?_⟩⟩
                · rw [value,show 0xd800 + ((uniCh - 0xd800) * 0x400 + (second - 0xdc00) + 0x10000 - 0x10000) / 0x400 = uniCh by omega]
                  exact isQuad
                · rw [value,show 0xdc00 + ((uniCh - 0xd800) * 0x400 + (second - 0xdc00) + 0x10000 - 0x10000) % 0x400 = second by omega]
                  exact isQuad'
                · rw [rest,view_of_getc (of_not_not backslash),view_of_getc (of_not_not letter),rest']

/-- What `_parse_string` has read is a string with its closing quote. -/
theorem parseString_inv (ran : parseString out input = (out',after,true)) :
    ∃ others bytes, StringText others bytes ∧ out' = out ++ bytes ∧ input.view = others ++ 0x22::after.view := by
  fun_induction parseString out input with
  | case1 => cases ran
  | case2 => cases ran
  | case3 out input read _ =>
    cases ran
    exact ⟨[],[],.nil,(List.append_nil _).symm,view_of_getc read⟩
  | case4 => cases ran
  | case5 out input letter second value known first _ _ ih =>
    obtain ⟨others,bytes,isText,rfl,rest⟩ := ih ran
    refine ⟨0x5c::letter::others,value::bytes,.letter known isText,by rw [List.append_assoc]; rfl,?_⟩
    rw [view_of_getc first,view_of_getc second,rest]
    rfl
  | case6 out input out' next point first _ _ second _ ih =>
    obtain ⟨others,bytes,isText,rfl,rest⟩ := ih ran
    obtain ⟨c,rfl,⟨digits,quad,view⟩ | ⟨high,low,large,quad,quad',view⟩⟩ := parseCodepoint_inv point
    · refine ⟨0x5c::0x75::(digits ++ others),String.utf8EncodeChar c ++ bytes,.point c quad isText,List.append_assoc _ _ _,?_⟩
      rw [view_of_getc first,view_of_getc second,view,rest]
      simp
    · refine ⟨_,String.utf8EncodeChar c ++ bytes,.pair c large quad quad' isText,List.append_assoc _ _ _,?_⟩
      rw [view_of_getc first,view_of_getc second,view,rest]
      simp
  | case7 => cases ran
  | case8 => cases ran
  | case9 out input ch first high noQuote noBackslash ih =>
    obtain ⟨others,bytes,isText,rfl,rest⟩ := ih ran
    refine ⟨ch::others,ch::bytes,.plain high noQuote noBackslash isText,by rw [List.append_assoc]; rfl,?_⟩
    rw [view_of_getc first,rest]
    rfl

end Sound

/-! ### Every string is read -/

section Complete

variable {out others : List UInt8} {input : Input}

theorem parseQuadhex_ok {digits : List UInt8} {n : Nat} (quad : Quad digits n) (view : input.view = digits ++ others) :
    ∃ after, parseQuadhex input = (some n,after) ∧ after.view = others := by
  obtain ⟨length,values,all,rfl⟩ := quad
  obtain ⟨after,read,last⟩ := quadhexLoop_ok all 0 view
  rw [length] at read
  exact ⟨after,read,last⟩

theorem parseCodepoint_point {digits : List UInt8} (c : Char) (quad : Quad digits c.toNat)
    (view : input.view = digits ++ others) :
    ∃ after, parseCodepoint out input = (out ++ String.utf8EncodeChar c,after,true) ∧ after.view = others := by
  obtain ⟨after,read,last⟩ := parseQuadhex_ok quad view
  have noHalf : (decide (0xd800 ≤ c.toNat) && decide (c.toNat ≤ 0xdfff)) = false := by
    have := char_noHalf c
    simpa using this
  exact ⟨after,by simp only [parseCodepoint,read,noHalf,Bool.false_eq_true,if_false,utf8_eq],last⟩

theorem parseCodepoint_pair {first second : List UInt8} (c : Char) (large : 0x10000 ≤ c.toNat)
    (high : Quad first (0xd800 + (c.toNat - 0x10000) / 0x400)) (low : Quad second (0xdc00 + (c.toNat - 0x10000) % 0x400))
    (view : input.view = first ++ 0x5c::0x75::(second ++ others)) :
    ∃ after, parseCodepoint out input = (out ++ String.utf8EncodeChar c,after,true) ∧ after.view = others := by
  have small := char_small c
  obtain ⟨next,read,rest⟩ := parseQuadhex_ok high view
  have backslash : next.getc.1 = some 0x5c := by rw [Input.getc_fst,rest]; rfl
  have letter : next.getc.2.getc.1 = some 0x75 := by rw [Input.getc_fst,Input.getc_view,rest]; rfl
  have behind : next.getc.2.getc.2.view = second ++ others := by rw [Input.getc_view,Input.getc_view,rest]; rfl
  obtain ⟨after,read',last⟩ := parseQuadhex_ok low behind
  refine ⟨after,?_,last⟩
  have isHigh : (decide (0xd800 ≤ 0xd800 + (c.toNat - 0x10000) / 0x400) &&
      decide (0xd800 + (c.toNat - 0x10000) / 0x400 ≤ 0xdfff)) = true := by
    simp only [Bool.and_eq_true,decide_eq_true_eq]
    omega
  have isLow : (decide (0xdc00 ≤ 0xdc00 + (c.toNat - 0x10000) % 0x400) &&
      decide (0xdc00 + (c.toNat - 0x10000) % 0x400 ≤ 0xdfff)) = true := by
    simp only [Bool.and_eq_true,decide_eq_true_eq]
    omega
  have first' : ¬ 0xdc00 ≤ 0xd800 + (c.toNat - 0x10000) / 0x400 := by omega
  have value : (0xd800 + (c.toNat - 0x10000) / 0x400 - 0xd800) * 0x400 + (0xdc00 + (c.toNat - 0x10000) % 0x400 - 0xdc00) +
      0x10000 = c.toNat := by omega
  simp only [parseCodepoint,read,isHigh,if_true,first',if_false,backslash,letter,ne_eq,not_true_eq_false,read',isLow]
  rw [pair_value (by omega),value,utf8_eq]

theorem parseString_codepoint (out : List UInt8) {bytes rest : List UInt8} (view : input.view = 0x5c::0x75::rest)
    (point : ∀ next : Input, next.view = rest →
      ∃ after, parseCodepoint out next = (bytes,after,true) ∧ after.view = others) :
    ∃ after, parseString out input = parseString bytes after ∧ after.view = others := by
  obtain ⟨after,read,last⟩ := point input.getc.2.getc.2 (by rw [Input.getc_view,Input.getc_view,view]; rfl)
  refine ⟨after,?_,last⟩
  rw [parseString]
  split
  case h_1 none_ => simp [view] at none_
  case h_2 ch' first =>
    obtain rfl : 0x5c = ch' := by simpa [view] using first
    rw [if_neg (by decide),if_neg (by decide),if_pos rfl]
    split
    case h_1 none_ => simp [view] at none_
    case h_2 letter' second =>
      obtain rfl : 0x75 = letter' := by simpa [view] using second
      have noLetter : unescape 0x75 = none := by decide
      simp only [noLetter,if_true]
      split
      case h_1 read' =>
        rw [read] at read'
        cases read'
        rfl
      case h_2 read' =>
        rw [read] at read'
        cases read'

/-- Behind its first quote, every string is read to the closing one. -/
theorem parseString_text {body bytes : List UInt8} (isText : StringText body bytes)
    (view : input.view = body ++ 0x22::others) :
    ∃ after, parseString out input = (out ++ bytes,after,true) ∧ after.view = others := by
  induction isText generalizing out input with
  | nil =>
    rw [List.append_nil]
    exact parseString_end view
  | plain high noQuote noBackslash _ ih =>
    obtain ⟨after,step,rest⟩ := @parseString_plain out _ _ _ view high noQuote noBackslash
    obtain ⟨last,read,behind⟩ := @ih (out ++ [_]) after rest
    exact ⟨last,by rw [step,read,List.append_assoc]; rfl,behind⟩
  | letter value _ ih =>
    obtain ⟨after,step,rest⟩ := @parseString_letter out _ _ _ _ view value
    obtain ⟨last,read,behind⟩ := @ih (out ++ [_]) after rest
    exact ⟨last,by rw [step,read,List.append_assoc]; rfl,behind⟩
  | point c quad _ ih =>
    rw [List.cons_append,List.cons_append,List.append_assoc] at view
    obtain ⟨after,step,rest⟩ := parseString_codepoint out view fun next here => parseCodepoint_point c quad here
    obtain ⟨last,read,behind⟩ := @ih (out ++ String.utf8EncodeChar c) after rest
    exact ⟨last,by rw [step,read,List.append_assoc],behind⟩
  | pair c large high low _ ih =>
    simp only [List.cons_append,List.append_assoc] at view
    obtain ⟨after,step,rest⟩ := parseString_codepoint out view
      fun next here => parseCodepoint_pair c large high low here
    obtain ⟨last,read,behind⟩ := @ih (out ++ String.utf8EncodeChar c) after rest
    exact ⟨last,by rw [step,read,List.append_assoc],behind⟩

end Complete

end StegoDisk.Json
