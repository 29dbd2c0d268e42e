import Mathlib.Data.List.DropRight
import StegoDisk.JsonRoundTrip
import StegoDisk.JsonStrings

/-!
The documents `Parse` accepts. They are given by a grammar: words, numbers, strings, arrays and objects with blanks
between their parts. `Parse` accepts a text exactly if it begins, behind blanks, with a value of this grammar, and
gives the tree that belongs to it. What stands behind the value is not looked at.
-/
namespace StegoDisk.Json

variable {D : Type} {doubles : Doubles D}

/-- What a piece of a document stands for. -/
inductive Part (D : Type)
  | value (o : JsonObject D)
  | items (items : List (JsonObject D))
  | members (members : List (List UInt8 × JsonObject D))

/-- With what `_parse` takes a text for a number. -/
def startsNumber (ch : UInt8) : Bool := (0x30 ≤ ch && ch ≤ 0x39) || ch = 0x2d

/-- Of the members with one key, the last one counts. -/
def assignAll (members done : List (List UInt8 × JsonObject D)) : List (List UInt8 × JsonObject D) :=
  members.foldl (fun done member => assign member.1 member.2 done) done

/-- The texts of the parts of documents. -/
inductive Derives (doubles : Doubles D) : List UInt8 → Part D → Prop
  | null : Derives doubles (text "null") (.value .null)
  | false_ : Derives doubles (text "false") (.value (.boolean false))
  | true_ : Derives doubles (text "true") (.value (.boolean true))
  | number {ch : UInt8} {digits : List UInt8} : startsNumber ch → digits.all isNumeric →
      (doubles.strtod (ch::digits)).2 = (ch::digits).length →
      Derives doubles (ch::digits) (.value (setNumber doubles (doubles.strtod (ch::digits)).1))
  | string {body bytes : List UInt8} : StringText body bytes →
      Derives doubles (0x22::(body ++ [0x22])) (.value (.string bytes))
  | noItems {blanks : List UInt8} : blanks.all isBlank → Derives doubles (0x5b::(blanks ++ [0x5d])) (.value (.array []))
  | array {inner : List UInt8} {items : List (JsonObject D)} : Derives doubles inner (.items items) →
      Derives doubles (0x5b::(inner ++ [0x5d])) (.value (.array items))
  | noMembers {blanks : List UInt8} : blanks.all isBlank → Derives doubles (0x7b::(blanks ++ [0x7d])) (.value (.object []))
  | object {inner : List UInt8} {members : List (List UInt8 × JsonObject D)} : Derives doubles inner (.members members) →
      Derives doubles (0x7b::(inner ++ [0x7d])) (.value (.object (assignAll members [])))
  | item {blanks item blanks' : List UInt8} {o : JsonObject D} : blanks.all isBlank → Derives doubles item (.value o) →
      blanks'.all isBlank → Derives doubles (blanks ++ (item ++ blanks')) (.items [o])
  | items {blanks item blanks' others : List UInt8} {o : JsonObject D} {items : List (JsonObject D)} :
      blanks.all isBlank → Derives doubles item (.value o) → blanks'.all isBlank → Derives doubles others (.items items) →
      Derives doubles (blanks ++ (item ++ (blanks' ++ 0x2c::others))) (.items (o::items))
  | member {blanks body key beside beside' value blanks' : List UInt8} {o : JsonObject D} : blanks.all isBlank →
      StringText body key → beside.all isBlank → beside'.all isBlank → Derives doubles value (.value o) →
      blanks'.all isBlank →
      Derives doubles (blanks ++ 0x22::(body ++ 0x22::(beside ++ 0x3a::(beside' ++ (value ++ blanks'))))) (.members [(key,o)])
  | members {blanks body key beside beside' value blanks' others : List UInt8} {o : JsonObject D}
      {members : List (List UInt8 × JsonObject D)} : blanks.all isBlank → StringText body key → beside.all isBlank →
      beside'.all isBlank → Derives doubles value (.value o) → blanks'.all isBlank → Derives doubles others (.members members) →
      Derives doubles (blanks ++ 0x22::(body ++ 0x22::(beside ++ 0x3a::(beside' ++ (value ++ (blanks' ++ 0x2c::others))))))
        (.members ((key,o)::members))

/-- A number ends where nothing that could belong to it follows; any other value has its own end. -/
def Ends (value others : List UInt8) : Prop := ∀ ch, value.head? = some ch → startsNumber ch → Stops others

/-! ### Pieces -/

variable {input after : Input} {blanks others : List UInt8} {ch : UInt8}

/-- What is skipped and what is left then. -/
theorem view_skipped (input : Input) : ∃ blanks, blanks.all isBlank ∧ input.view = blanks ++ input.view.dropWhile isBlank :=
  ⟨input.view.takeWhile isBlank,by simp,
    List.takeWhile_append_dropWhile.symm⟩

theorem expect_inv (found : input.expect ch = (true,after)) : input.view.dropWhile isBlank = ch::after.view := by
  rw [Input.expect] at found
  split at found
  case isTrue => cases found
  case isFalse next =>
    cases found
    rw [← Input.skipWs_view]
    exact view_of_getc (of_not_not next)

theorem expect_not (other : input.expect ch = (false,after)) : after.view = input.view.dropWhile isBlank := by
  rw [Input.expect] at other
  split at other
  case isTrue =>
    cases other
    rw [Input.getc_ungetc,Input.skipWs_view]
  case isFalse => cases other

/-- What ends an array or an object, where no comma came. -/
theorem closing_inv {next last : Input} {comma : UInt8} (other : next.expect comma = (false,last))
    (closing : last.expect ch = (true,after)) : next.view.dropWhile isBlank = ch::after.view := by
  have same := expect_inv closing
  rwa [expect_not other,List.dropWhile_idempotent] at same

theorem match_inv {pattern : List UInt8} (matched : input.match_ pattern = (true,after)) :
    input.view = pattern ++ after.view := by
  induction pattern generalizing input with
  | nil =>
    cases matched
    rfl
  | cons ch pattern ih =>
    rw [Input.match_] at matched
    split at matched
    case isTrue => cases matched
    case isFalse next =>
      rw [view_of_getc (of_not_not next),ih matched]
      rfl

theorem parseWord_inv {pattern : List UInt8} {value out v : JsonObject D}
    (ran : parseWord pattern value out input = (v,after,true)) : v = value ∧ input.view = pattern ++ after.view := by
  rw [parseWord] at ran
  split at ran
  case h_1 matched =>
    cases ran
    exact ⟨rfl,match_inv matched⟩
  case h_2 => cases ran

/-- What is taken for a number goes to the first byte that could not belong to it. -/
theorem numberText_inv {numStr numStr' : List UInt8} (ran : numberText numStr input = (numStr',after)) :
    ∃ digits, numStr' = numStr ++ digits ∧ digits.all isNumeric ∧ Stops after.view ∧ input.view = digits ++ after.view := by
  fun_induction numberText numStr input with
  | case1 numStr input none_ =>
    cases ran
    rw [Input.getc_fst] at none_
    refine ⟨[],(List.append_nil _).symm,rfl,?_,by rw [Input.getc_ungetc]; rfl⟩
    intro ch head
    rw [Input.getc_ungetc,none_] at head
    cases head
  | case2 numStr input ch read numeric ih =>
    obtain ⟨digits,rfl,all,stops,view⟩ := ih ran
    refine ⟨ch::digits,by simp,by simp [numeric,all],stops,?_⟩
    rw [view_of_getc read,view]
    rfl
  | case3 numStr input ch read other =>
    cases ran
    rw [Input.getc_fst] at read
    refine ⟨[],(List.append_nil _).symm,rfl,?_,by rw [Input.getc_ungetc]; rfl⟩
    intro ch' head
    rw [Input.getc_ungetc,read] at head
    cases head
    simpa using other

/-- A number does not begin like any other value. -/
theorem startsNumber_apart (starts : startsNumber ch) :
    ch ≠ 0x6e ∧ ch ≠ 0x66 ∧ ch ≠ 0x74 ∧ ch ≠ 0x22 ∧ ch ≠ 0x5b ∧ ch ≠ 0x7b := by
  refine ⟨?_,?_,?_,?_,?_,?_⟩ <;> (rintro rfl; revert starts; decide)

theorem startsNumber_numeric (starts : startsNumber ch) : isNumeric ch := by
  simp only [startsNumber,Bool.or_eq_true] at starts
  rcases starts with digit | minus
  · simp [isNumeric,digit]
  · simp [isNumeric,minus]

/-- A value begins with no blank and not like the end of an array. -/
theorem Derives.head {value : List UInt8} {o : JsonObject D} (derives : Derives doubles value (.value o)) :
    ∃ ch others, value = ch::others ∧ isBlank ch = false ∧ ch ≠ 0x5d := by
  cases derives with
  | null => exact ⟨0x6e,text "ull",rfl,by decide,by decide⟩
  | false_ => exact ⟨0x66,text "alse",rfl,by decide,by decide⟩
  | true_ => exact ⟨0x74,text "rue",rfl,by decide,by decide⟩
  | number starts =>
    refine ⟨_,_,rfl,?_,?_⟩
    · by_contra blank
      have not_ := not_numeric_of_blank (by simpa using blank)
      simp [startsNumber_numeric starts] at not_
    · rintro rfl
      revert starts
      decide
  | string => exact ⟨0x22,_,rfl,by decide,by decide⟩
  | noItems => exact ⟨0x5b,_,rfl,by decide,by decide⟩
  | array => exact ⟨0x5b,_,rfl,by decide,by decide⟩
  | noMembers => exact ⟨0x7b,_,rfl,by decide,by decide⟩
  | object => exact ⟨0x7b,_,rfl,by decide,by decide⟩

/-- Blanks may stand before the first item. -/
theorem Derives.blanks_items {inner : List UInt8} {items : List (JsonObject D)} (blank : blanks.all isBlank)
    (derives : Derives doubles inner (.items items)) : Derives doubles (blanks ++ inner) (.items items) := by
  cases derives with
  | item before value behind =>
    rw [← List.append_assoc]
    exact .item (by rw [List.all_append,blank,before]; rfl) value behind
  | items before value behind rest =>
    rw [← List.append_assoc]
    exact .items (by rw [List.all_append,blank,before]; rfl) value behind rest

theorem Derives.blanks_members {inner : List UInt8} {members : List (List UInt8 × JsonObject D)} (blank : blanks.all isBlank)
    (derives : Derives doubles inner (.members members)) : Derives doubles (blanks ++ inner) (.members members) := by
  cases derives with
  | member before key beside beside' value behind =>
    rw [← List.append_assoc]
    exact .member (by rw [List.all_append,blank,before]; rfl) key beside beside' value behind
  | members before key beside beside' value behind rest =>
    rw [← List.append_assoc]
    exact .members (by rw [List.all_append,blank,before]; rfl) key beside beside' value behind rest

/-! ### What is accepted is a value -/

/-- What `_parse` has read is a value behind blanks. -/
def ValueDerived (doubles : Doubles D) (fuel : Nat) : Prop :=
  ∀ (out v : JsonObject D) (input after : Input), parseValue doubles fuel out input = .ok (v,after,true) →
    ∃ value, Derives doubles value (.value v) ∧ Ends value after.view ∧ input.view.dropWhile isBlank = value ++ after.view

/-- What the loop of `_parse_array` has read are items with the end of the array. -/
def ItemsDerived (doubles : Doubles D) (fuel : Nat) : Prop :=
  ∀ (done : List (JsonObject D)) (v : JsonObject D) (input after : Input),
    parseItems doubles fuel done input = .ok (v,after,true) →
    ∃ inner items, v = .array (done ++ items) ∧ Derives doubles inner (.items items) ∧ input.view = inner ++ 0x5d::after.view

def MembersDerived (doubles : Doubles D) (fuel : Nat) : Prop :=
  ∀ (done : List (List UInt8 × JsonObject D)) (v : JsonObject D) (input after : Input),
    parseMembers doubles fuel done input = .ok (v,after,true) →
    ∃ inner members, v = .object (assignAll members done) ∧ Derives doubles inner (.members members) ∧
      input.view = inner ++ 0x7d::after.view

variable {fuel : Nat}

theorem ends_of_other {value : List UInt8} (head : value.head? = some ch) (other : startsNumber ch = false) :
    Ends value others := by
  intro ch' head' starts
  obtain rfl : ch = ch' := Option.some.inj (head.symm.trans head')
  simp [other] at starts

theorem itemsDerived_succ (valueDerived : ValueDerived doubles fuel) (itemsDerived : ItemsDerived doubles fuel) :
    ItemsDerived doubles (fuel + 1) := by
  intro done v input after ran
  obtain ⟨blanks,blank,skipped⟩ := view_skipped input
  rw [parseItems] at ran
  split at ran
  case h_1 => cases ran
  case h_2 => cases ran
  case h_3 item next read =>
    obtain ⟨value,derives,-,here⟩ := valueDerived _ _ _ _ read
    obtain ⟨blanks',blank',behind⟩ := view_skipped next
    split at ran
    case h_1 last comma =>
      obtain ⟨inner,items,rfl,rest,view⟩ := itemsDerived _ _ _ _ ran
      refine ⟨_,item::items,by rw [List.append_assoc]; rfl,.items blank derives blank' rest,?_⟩
      rw [skipped,here,behind,expect_inv comma,view]
      simp
    case h_2 last other =>
      split at ran
      case h_1 closed final closing =>
        obtain ⟨rfl,rfl,rfl⟩ : JsonObject.array (done ++ [item]) = v ∧ final = after ∧ closed = true := by simpa using ran
        refine ⟨_,[item],rfl,.item blank derives blank',?_⟩
        rw [skipped,here,behind,closing_inv other closing]
        simp

theorem membersDerived_succ (valueDerived : ValueDerived doubles fuel) (membersDerived : MembersDerived doubles fuel) :
    MembersDerived doubles (fuel + 1) := by
  intro done v input after ran
  obtain ⟨blanks,blank,skipped⟩ := view_skipped input
  rw [parseMembers] at ran
  split at ran
  case h_1 => cases ran
  case h_2 opened quote =>
    split at ran
    case h_1 => cases ran
    case h_2 key named string =>
      obtain ⟨body,_,isText,rfl,body_⟩ := parseString_inv string
      obtain ⟨beside,blankBeside,besideView⟩ := view_skipped named
      split at ran
      case h_1 => cases ran
      case h_2 parted colon =>
        obtain ⟨beside',blankBeside',besideView'⟩ := view_skipped parted
        split at ran
        case h_1 => cases ran
        case h_2 => cases ran
        case h_3 o next read =>
          obtain ⟨value,derives,-,here⟩ := valueDerived _ _ _ _ read
          obtain ⟨blanks',blank',behind⟩ := view_skipped next
          have begins : input.view = blanks ++ 0x22::(body ++ 0x22::(beside ++ 0x3a::(beside' ++ (value ++ next.view)))) := by
            rw [skipped,expect_inv quote,body_,besideView,expect_inv colon,besideView',here]
          split at ran
          case h_1 last comma =>
            obtain ⟨inner,members,rfl,rest,view⟩ := membersDerived _ _ _ _ ran
            refine ⟨_,(_,o)::members,rfl,.members blank isText blankBeside blankBeside' derives blank' rest,?_⟩
            rw [begins,behind,expect_inv comma,view]
            simp
          case h_2 last other =>
            split at ran
            case h_1 closed final closing =>
              obtain ⟨rfl,rfl,rfl⟩ : JsonObject.object (assign _ o done) = v ∧ final = after ∧ closed = true := by
                simpa using ran
              refine ⟨_,[(_,o)],rfl,.member blank isText blankBeside blankBeside' derives blank',?_⟩
              rw [begins,behind,closing_inv other closing]
              simp

theorem valueDerived_succ (itemsDerived : ItemsDerived doubles fuel) (membersDerived : MembersDerived doubles fuel) :
    ValueDerived doubles (fuel + 1) := by
  intro out v input after ran
  rw [parseValue] at ran
  dsimp only at ran
  split at ran
  case h_1 => cases ran
  case h_2 ch read =>
    have first := view_of_getc read
    rw [Input.skipWs_view] at first
    rw [first]
    -- one case for each byte a value can begin with, in the order in which they are asked for
    split at ran
    case isTrue n =>
      obtain ⟨rfl,view⟩ := parseWord_inv (Except.ok.inj ran)
      exact ⟨text "null",.null,ends_of_other rfl (by decide),by rw [n,view]; rfl⟩
    split at ran
    case isTrue f =>
      obtain ⟨rfl,view⟩ := parseWord_inv (Except.ok.inj ran)
      exact ⟨text "false",.false_,ends_of_other rfl (by decide),by rw [f,view]; rfl⟩
    split at ran
    case isTrue t =>
      obtain ⟨rfl,view⟩ := parseWord_inv (Except.ok.inj ran)
      exact ⟨text "true",.true_,ends_of_other rfl (by decide),by rw [t,view]; rfl⟩
    split at ran
    case isTrue quote =>
      obtain ⟨rfl,read⟩ : JsonObject.string (parseString [] input.skipWs.getc.2).1 = v ∧
        (parseString [] input.skipWs.getc.2).2 = (after,true) := by simpa using ran
      obtain ⟨body,bytes,isText,same,view⟩ :=
        parseString_inv (show parseString [] input.skipWs.getc.2 = ((parseString [] input.skipWs.getc.2).1,after,true) by
          rw [← read])
      rw [same]
      refine ⟨_,.string isText,ends_of_other rfl (by decide),?_⟩
      rw [quote,view]
      simp
    split at ran
    case isTrue bracket =>
      obtain ⟨blanks,blank,skipped⟩ := view_skipped input.skipWs.getc.2
      split at ran
      case h_1 next closed =>
        cases ran
        refine ⟨_,.noItems blank,ends_of_other rfl (by decide),?_⟩
        rw [bracket,skipped,expect_inv closed]
        simp
      case h_2 next opened =>
        obtain ⟨inner,items,rfl,derives,view⟩ := itemsDerived _ _ _ _ ran
        refine ⟨_,.array (derives.blanks_items blank),ends_of_other rfl (by decide),?_⟩
        rw [bracket,skipped,← expect_not opened,view]
        simp
    split at ran
    case isTrue brace =>
      obtain ⟨blanks,blank,skipped⟩ := view_skipped input.skipWs.getc.2
      split at ran
      case h_1 next closed =>
        cases ran
        refine ⟨_,.noMembers blank,ends_of_other rfl (by decide),?_⟩
        rw [brace,skipped,expect_inv closed]
        simp
      case h_2 next opened =>
        obtain ⟨inner,members,rfl,derives,view⟩ := membersDerived _ _ _ _ ran
        refine ⟨_,.object (derives.blanks_members blank),ends_of_other rfl (by decide),?_⟩
        rw [brace,skipped,← expect_not opened,view]
        simp
    split at ran
    case isFalse => cases ran
    case isTrue starts =>
      split at ran
      case h_2 => cases ran
      case h_1 f next number =>
        cases ran
        obtain ⟨rfl,last,whole⟩ := by simpa [parseNumber] using number
        obtain ⟨digits,numStr,numeric,stops,view⟩ :=
          numberText_inv (show numberText [] input.skipWs.getc.2.ungetc = (_,after) by rw [← last])
        rw [List.nil_append] at numStr
        rw [Input.getc_ungetc,Input.skipWs_view,first] at view
        rw [numStr] at whole ⊢
        cases digits with
        | nil =>
          -- the byte that was looked at first belongs to the number
          have other := stops ch (by rw [← List.nil_append after.view,← view]; rfl)
          simp [startsNumber_numeric starts] at other
        | cons digit digits =>
          obtain ⟨rfl,-⟩ := List.cons.inj view
          rw [List.all_cons,Bool.and_eq_true] at numeric
          exact ⟨_,.number starts numeric.2 whole,fun _ _ _ => stops,view⟩

/-- Whatever `_parse` reads is a value. -/
theorem derived (doubles : Doubles D) (fuel : Nat) :
    ValueDerived doubles fuel ∧ ItemsDerived doubles fuel ∧ MembersDerived doubles fuel := by
  induction fuel with
  | zero =>
    refine ⟨?_,?_,?_⟩
    · intro out v input after ran
      cases ran
    · intro done v input after ran
      cases ran
    · intro done v input after ran
      cases ran
  | succ fuel ih =>
    obtain ⟨value,items,members⟩ := ih
    exact ⟨valueDerived_succ items members,itemsDerived_succ value items,membersDerived_succ value members⟩

/-! ### Every value is accepted -/

/-- The text of a part is read to its end, where as many steps are watched as it takes. -/
def Reads (doubles : Doubles D) (piece : List UInt8) : Part D → Prop
  | .value o => ∀ (fuel : Nat) (out : JsonObject D) (input : Input) (blanks others : List UInt8),
    2 * piece.length ≤ fuel + 1 → blanks.all isBlank → Ends piece others → input.view = blanks ++ (piece ++ others) →
    ∃ after, parseValue doubles (fuel + 1) out input = .ok (o,after,true) ∧ after.view = others
  | .items items => ∀ (fuel : Nat) (done : List (JsonObject D)) (input : Input) (others : List UInt8),
    2 * piece.length ≤ fuel → input.view.dropWhile isBlank = (piece ++ 0x5d::others).dropWhile isBlank →
    ∃ after, parseItems doubles (fuel + 1) done input = .ok (.array (done ++ items),after,true) ∧ after.view = others
  | .members members => ∀ (fuel : Nat) (done : List (List UInt8 × JsonObject D)) (input : Input) (others : List UInt8),
    2 * piece.length ≤ fuel → input.view.dropWhile isBlank = (piece ++ 0x7d::others).dropWhile isBlank →
    ∃ after, parseMembers doubles (fuel + 1) done input = .ok (.object (assignAll members done),after,true) ∧ after.view = others

theorem parseValue_numeral {digits : List UInt8} (starts : startsNumber ch) (numeric : digits.all isNumeric)
    (whole : (doubles.strtod (ch::digits)).2 = (ch::digits).length) (fuel : Nat) (out : JsonObject D) (blank : blanks.all isBlank)
    (stops : Stops others) (view : input.view = blanks ++ ch::(digits ++ others)) :
    ∃ after, parseValue doubles (fuel + 1) out input = .ok (setNumber doubles (doubles.strtod (ch::digits)).1,after,true) ∧
      after.view = others := by
  have notBlank : isBlank ch = false := by
    by_contra blank
    have not_ := not_numeric_of_blank (by simpa using blank)
    simp [startsNumber_numeric starts] at not_
  obtain ⟨next,-⟩ := first_byte blank notBlank view
  have again : input.skipWs.getc.2.ungetc.view = (ch::digits) ++ others := by
    rw [Input.getc_ungetc,Input.skipWs_view,view,dropWhile_blanks blank notBlank]
    rfl
  have all : (ch::digits).all isNumeric := by simp [startsNumber_numeric starts,numeric]
  obtain ⟨after,read,last⟩ := numberText_ok [] all stops again
  refine ⟨after,?_,last⟩
  obtain ⟨n,f,t,quote,bracket,brace⟩ := startsNumber_apart starts
  have number : parseNumber doubles input.skipWs.getc.2.ungetc = ((doubles.strtod (ch::digits)).1,after,true) := by
    simp [parseNumber,read,whole]
  simp only [parseValue,next,n,f,t,quote,bracket,brace,if_false,number]
  exact if_pos starts

theorem parseValue_text {body bytes : List UInt8} (isText : StringText body bytes) (fuel : Nat) (out : JsonObject D)
    (blank : blanks.all isBlank) (view : input.view = blanks ++ 0x22::(body ++ 0x22::others)) :
    ∃ after, parseValue doubles (fuel + 1) out input = .ok (.string bytes,after,true) ∧ after.view = others := by
  obtain ⟨next,rest⟩ := first_byte blank (by decide) view
  obtain ⟨after,read,last⟩ := @parseString_text [] _ _ _ _ isText rest
  rw [List.nil_append] at read
  refine ⟨after,?_,last⟩
  simp only [parseValue,next,read]
  rfl

theorem Derives.items_head {inner : List UInt8} {items : List (JsonObject D)} (derives : Derives doubles inner (.items items)) :
    ∃ blanks ch others, inner = blanks ++ ch::others ∧ blanks.all isBlank ∧ isBlank ch = false ∧ ch ≠ 0x5d := by
  cases derives with
  | item before value =>
    obtain ⟨ch,others,rfl,notBlank,noEnd⟩ := value.head
    exact ⟨_,ch,_,rfl,before,notBlank,noEnd⟩
  | items before value =>
    obtain ⟨ch,others,rfl,notBlank,noEnd⟩ := value.head
    exact ⟨_,ch,_,rfl,before,notBlank,noEnd⟩

theorem Derives.members_head {inner : List UInt8} {members : List (List UInt8 × JsonObject D)}
    (derives : Derives doubles inner (.members members)) : ∃ blanks others, inner = blanks ++ 0x22::others ∧ blanks.all isBlank := by
  cases derives with
  | member before => exact ⟨_,_,rfl,before⟩
  | members before => exact ⟨_,_,rfl,before⟩

/-- An item of an array is read to what stands behind its blanks. -/
theorem reads_item (ch : UInt8) (behind : List UInt8) {item blanks' : List UInt8} {o : JsonObject D} (reads : Reads doubles item (.value o))
    (derives : Derives doubles item (.value o)) (blank : blanks.all isBlank) (blank' : blanks'.all isBlank)
    (next : isNumeric ch = false) {fuel : Nat} (enough : 2 * item.length ≤ fuel) (out : JsonObject D)
    (view : input.view.dropWhile isBlank = (blanks ++ (item ++ (blanks' ++ ch::behind))).dropWhile isBlank) :
    ∃ after, parseValue doubles fuel out input = .ok (o,after,true) ∧ after.view = blanks' ++ ch::behind := by
  obtain ⟨first,others,rfl,notBlank,-⟩ := derives.head
  rw [List.length_cons] at enough
  obtain ⟨fuel,rfl⟩ : ∃ k, fuel = k + 1 := ⟨fuel - 1,by omega⟩
  obtain ⟨skipped,blank'',whole⟩ := view_skipped input
  rw [view,List.cons_append,dropWhile_blanks blank notBlank] at whole
  exact reads fuel out input skipped _ enough blank'' (fun _ _ _ => stops_blanks blank' next) whole

/-- The member of an object is read to what stands behind its blanks. -/
theorem reads_member (ch : UInt8) (behind : List UInt8) {body key beside beside' value blanks' : List UInt8} {o : JsonObject D}
    (reads : Reads doubles value (.value o)) (derives : Derives doubles value (.value o)) (blank : blanks.all isBlank)
    (isText : StringText body key) (blankBeside : beside.all isBlank) (blankBeside' : beside'.all isBlank)
    (blank' : blanks'.all isBlank) (next : isNumeric ch = false) {fuel : Nat} (enough : 2 * value.length ≤ fuel) (out : JsonObject D)
    (view : input.view.dropWhile isBlank = (blanks ++ 0x22::(body ++ 0x22::(beside ++ 0x3a::(beside' ++ (value ++
      (blanks' ++ ch::behind)))))).dropWhile isBlank) :
    ∃ opened named parted after, input.expect 0x22 = (true,opened) ∧ parseString [] opened = (key,named,true) ∧
      named.expect 0x3a = (true,parted) ∧ parseValue doubles fuel out parted = .ok (o,after,true) ∧
      after.view = blanks' ++ ch::behind := by
  rw [dropWhile_blanks blank (by decide)] at view
  obtain ⟨opened,quote,here⟩ := Input.expect_ok view
  obtain ⟨named,string,here⟩ := @parseString_text [] _ _ _ _ isText here
  obtain ⟨parted,colon,here⟩ := expect_blanks here blankBeside (by decide)
  obtain ⟨after,read,rest⟩ := reads_item ch behind reads derives blankBeside' blank' next enough out (congrArg _ here)
  exact ⟨opened,named,parted,after,quote,string,colon,read,rest⟩

/-- Whatever is derived is read. -/
theorem Derives.reads {piece : List UInt8} {part : Part D} (derives : Derives doubles piece part) :
    Reads doubles piece part := by
  induction derives with
  | null =>
    intro fuel out input blanks others _ blank _ view
    exact parseValue_word blank (by decide) (show input.view = blanks ++ 0x6e::(text "ull" ++ others) from view) fun next => by
      simp only [parseValue,next]
      rfl
  | false_ =>
    intro fuel out input blanks others _ blank _ view
    exact parseValue_word blank (by decide) (show input.view = blanks ++ 0x66::(text "alse" ++ others) from view) fun next => by
      simp only [parseValue,next]
      rfl
  | true_ =>
    intro fuel out input blanks others _ blank _ view
    exact parseValue_word blank (by decide) (show input.view = blanks ++ 0x74::(text "rue" ++ others) from view) fun next => by
      simp only [parseValue,next]
      rfl
  | number starts numeric whole =>
    intro fuel out input blanks others _ blank ends view
    exact parseValue_numeral starts numeric whole fuel out blank (ends _ rfl starts) view
  | string isText =>
    intro fuel out input blanks others _ blank _ view
    exact parseValue_text isText fuel out blank (by rw [view]; simp)
  | noItems blank' =>
    intro fuel out input blanks others _ blank _ view
    exact parseValue_noItems fuel out blank blank' (by rw [view]; simp)
  | @array inner items derives ih =>
    intro fuel out input blanks others enough blank _ view
    simp only [List.length_cons,List.length_append,List.length_nil] at enough
    obtain ⟨fuel,rfl⟩ : ∃ k, fuel = k + 1 := ⟨fuel - 1,by omega⟩
    obtain ⟨before,ch,rest,rfl,blank',notBlank,noEnd⟩ := derives.items_head
    obtain ⟨after,step,here⟩ : ∃ after, parseValue doubles (fuel + 1 + 1) out input = parseItems doubles (fuel + 1) [] after ∧
        after.view = ch::(rest ++ 0x5d::others) :=
      parseValue_array (fuel + 1) out blank blank' notBlank noEnd (by rw [view]; simp)
    obtain ⟨last,read,behind⟩ := ih fuel [] after others (by omega) (by
      rw [here,List.append_assoc,List.cons_append,dropWhile_blanks blank' notBlank,List.dropWhile_cons_of_neg (by simp [notBlank])])
    exact ⟨last,step.trans read,behind⟩
  | noMembers blank' =>
    intro fuel out input blanks others _ blank _ view
    exact parseValue_noMembers fuel out blank blank' (by rw [view]; simp)
  | @object inner members derives ih =>
    intro fuel out input blanks others enough blank _ view
    simp only [List.length_cons,List.length_append,List.length_nil] at enough
    obtain ⟨fuel,rfl⟩ : ∃ k, fuel = k + 1 := ⟨fuel - 1,by omega⟩
    obtain ⟨before,rest,rfl,blank'⟩ := derives.members_head
    obtain ⟨after,step,here⟩ : ∃ after, parseValue doubles (fuel + 1 + 1) out input = parseMembers doubles (fuel + 1) [] after ∧
        after.view = 0x22::(rest ++ 0x7d::others) :=
      parseValue_object (fuel + 1) out blank blank' (by rw [view]; simp)
    obtain ⟨last,read,behind⟩ := ih fuel [] after others (by omega) (by
      rw [here,List.append_assoc,List.cons_append,dropWhile_blanks blank' (by decide),List.dropWhile_cons_of_neg (by decide)])
    exact ⟨last,step.trans read,behind⟩
  | @item blanks item blanks' o blank derives blank' ih =>
    intro fuel done input others enough view
    simp only [List.length_append] at enough
    obtain ⟨after,read,rest⟩ := reads_item 0x5d others ih derives blank blank' (by decide)
      (show 2 * item.length ≤ fuel by omega) .null
      (by rw [view]; simp)
    obtain ⟨behind,other,here⟩ : ∃ behind, after.expect 0x2c = (false,behind) ∧ behind.view = 0x5d::others :=
      expect_other rest blank' (by decide) (by decide)
    obtain ⟨last,closed,view'⟩ := expect_blanks (show behind.view = [] ++ 0x5d::others from here) rfl (by decide)
    exact ⟨last,by simp only [parseItems,read,other,closed],view'⟩
  | @items blanks item blanks' rest' o items blank derives blank' _ ih ih' =>
    intro fuel done input others enough view
    simp only [List.length_append,List.length_cons] at enough
    obtain ⟨fuel,rfl⟩ : ∃ k, fuel = k + 1 := ⟨fuel - 1,by omega⟩
    obtain ⟨after,read,rest⟩ := reads_item 0x2c (rest' ++ 0x5d::others) ih derives blank blank' (by decide)
      (show 2 * item.length ≤ fuel + 1 by omega) .null (by rw [view]; simp)
    obtain ⟨behind,comma,here⟩ := expect_blanks rest blank' (by decide)
    obtain ⟨last,tail,view'⟩ := ih' fuel (done ++ [o]) behind others (by omega) (congrArg _ here)
    refine ⟨last,?_,view'⟩
    rw [parseItems]
    simp only [read,comma,tail,List.append_assoc,List.singleton_append]
  | @member blanks body key beside beside' value blanks' o blank isText blankBeside blankBeside' derives blank' ih =>
    intro fuel done input others enough view
    simp only [List.length_append,List.length_cons] at enough
    obtain ⟨opened,named,parted,after,quote,string,colon,read,rest⟩ := reads_member 0x7d others ih derives blank
      isText blankBeside blankBeside' blank' (by decide) (show 2 * value.length ≤ fuel by omega)
      (lookup key done) (by rw [view]; simp)
    obtain ⟨behind,other,here⟩ : ∃ behind, after.expect 0x2c = (false,behind) ∧ behind.view = 0x7d::others :=
      expect_other rest blank' (by decide) (by decide)
    obtain ⟨last,closed,view'⟩ := expect_blanks (show behind.view = [] ++ 0x7d::others from here) rfl (by decide)
    refine ⟨last,?_,view'⟩
    simp only [parseMembers,quote,string,colon,read,other,closed]
    rfl
  | @members blanks body key beside beside' value blanks' rest' o members blank isText blankBeside blankBeside' derives blank' _ ih
      ih' =>
    intro fuel done input others enough view
    simp only [List.length_append,List.length_cons] at enough
    obtain ⟨fuel,rfl⟩ : ∃ k, fuel = k + 1 := ⟨fuel - 1,by omega⟩
    obtain ⟨opened,named,parted,after,quote,string,colon,read,rest⟩ := reads_member 0x2c (rest' ++ 0x7d::others) ih
      derives blank isText blankBeside blankBeside' blank' (by decide) (show 2 * value.length ≤ fuel + 1 by omega)
      (lookup key done) (by rw [view]; simp)
    obtain ⟨behind,comma,here⟩ := expect_blanks rest blank' (by decide)
    obtain ⟨last,tail,view'⟩ := ih' fuel (assign key o done) behind others (by omega) (congrArg _ here)
    refine ⟨last,?_,view'⟩
    rw [parseMembers]
    simp only [quote,string,colon,read,comma,tail]
    rfl

/-! ### Documents -/

/-- A text begins, behind blanks, with a value. -/
def Begins (doubles : Doubles D) (json : List UInt8) (v : JsonObject D) : Prop :=
  ∃ blanks value others, json = blanks ++ (value ++ others) ∧ blanks.all isBlank ∧ Derives doubles value (.value v) ∧
    Ends value others

theorem restOfLine_ne {err : List UInt8} (some_ : err ≠ []) (input : Input) : restOfLine err input ≠ [] := by
  fun_induction restOfLine err input with
  | case1 => exact some_
  | case2 => exact some_
  | case3 err input ch read _ ih =>
    refine ih ?_
    split
    · exact List.append_ne_nil_of_right_ne_nil err (List.cons_ne_nil ch [])
    · exact some_

/-- The text of an error is not empty. -/
theorem syntaxError_ne (line : Nat) : text ("syntax error at line " ++ toString line ++ " near: ") ≠ [] := by
  intro empty
  have length := congrArg List.length empty
  simp [text] at length

theorem parse_accepts {json : List UInt8} {v : JsonObject D} (begins : Begins doubles json v) (root : JsonObject D) :
    parse doubles json root = .ok ([],v) := by
  obtain ⟨blanks,value,others,rfl,blank,derives,ends⟩ := begins
  obtain ⟨after,read,-⟩ := derives.reads (2 * (blanks ++ (value ++ others)).length) root (.start (blanks ++ (value ++ others)))
    blanks others (by simp only [List.length_append]; omega) blank ends rfl
  rw [parse,read]

/-- `Parse` accepts the texts that begin with a value of the grammar and gives the tree of this value. -/
theorem parse_iff (doubles : Doubles D) (json : List UInt8) (root v : JsonObject D) :
    parse doubles json root = .ok ([],v) ↔ Begins doubles json v := by
  refine ⟨fun accepted => ?_,fun begins => parse_accepts begins root⟩
  rw [parse] at accepted
  split at accepted
  case h_1 => cases accepted
  case h_2 v' after read =>
    cases accepted
    obtain ⟨value,derives,ends,view⟩ := (derived doubles _).1 _ _ _ _ read
    obtain ⟨blanks,blank,skipped⟩ := view_skipped (.start json)
    exact ⟨blanks,value,after.view,by rw [← view]; exact skipped,blank,derives,ends⟩
  case h_3 v' after read =>
    have message := congrArg Prod.fst (Except.ok.inj accepted)
    exact absurd message (restOfLine_ne (syntaxError_ne _) _)

/-- A text begins with at most one value. -/
theorem Begins.unique {json : List UInt8} {v v' : JsonObject D} (begins : Begins doubles json v) (begins' : Begins doubles json v') :
    v = v' := by
  have read := parse_accepts begins .null
  rw [parse_accepts begins' .null] at read
  simpa using read.symm

end StegoDisk.Json
