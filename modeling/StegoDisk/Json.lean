import StegoDisk.Configuration
import StegoDisk.JsonText

/-!
`JsonObject` of `utils/json_object.h` with all its values, `Serialize`, `PrettySerialize`, and `Parse` of
`utils/json.h` with `default_parse_context`. Numbers are `double`s, of which only what the code does with them is
given. An object keeps its members in the order of their keys, as `std::map` does.
-/
namespace StegoDisk.Json
set_option linter.unusedVariables false

/-- What the code does with `double`s. -/
structure Doubles (D : Type) where
  /-- `fabs(x) < (1ULL << 53) && modf(x, &tmp) == 0`. -/
  isInteger : D → Bool
  /-- What `%.f` prints into the buffer. -/
  printF : D → List UInt8
  /-- What `%.17g` prints into the buffer. -/
  printG : D → List UInt8
  /-- `strtod`: the number and how many bytes were read. -/
  strtod : List UInt8 → D × Nat
  /-- The conversion to `bool`. -/
  toBool : D → Bool

/-- `JsonObject`. -/
inductive JsonObject (D : Type)
  | null
  | boolean (boolVal : Bool)
  | number (numberVal : D)
  | string (bytes : List UInt8)
  | object (members : List (List UInt8 × JsonObject D))
  | array (items : List (JsonObject D))

variable {D : Type}

/-! ### Writing -/

/-- `JsonObject::to_str`. -/
def JsonObject.toStr (doubles : Doubles D) : JsonObject D → List UInt8
  | .null => text "null"
  | .boolean boolVal => if boolVal then text "true" else text "false"
  | .number numberVal => if doubles.isInteger numberVal then doubles.printF numberVal else doubles.printG numberVal
  | .string bytes => bytes
  | .array _ => text "array"
  | .object _ => text "object"

/-- Where the two functions that serialise differ: in the blanks between the parts. -/
structure Layout where
  newline : List UInt8
  indented : Nat → List UInt8
  besideColon : List UInt8
  newline_blank : newline.all isBlank
  indented_blank : ∀ indent, (indented indent).all isBlank
  besideColon_blank : besideColon.all isBlank

/-- The layout of `Serialize`. -/
def compact : Layout where
  newline := []
  indented _ := []
  besideColon := []
  newline_blank := rfl
  indented_blank _ := rfl
  besideColon_blank := rfl

/-- The layout of `PrettySerialize`, with `Indent`. -/
def pretty : Layout where
  newline := [0x0a]
  indented indent := List.replicate (indent * 2) 0x20
  besideColon := [0x20]
  newline_blank := rfl
  indented_blank indent := by simp [isBlank]
  besideColon_blank := rfl

mutual

/-- The body of `Serialize` and `PrettySerialize`. -/
def JsonObject.write (doubles : Doubles D) (layout : Layout) (indent : Nat) : JsonObject D → List UInt8
  | .string bytes => serializeStr bytes
  | .array items =>
    0x5b::layout.newline ++ writeItems doubles layout indent true items ++ layout.newline ++ layout.indented indent ++ [0x5d]
  | .object members =>
    0x7b::layout.newline ++ writeMembers doubles layout indent true members ++ layout.newline ++ layout.indented indent ++ [0x7d]
  | .null => JsonObject.null.toStr doubles
  | .boolean boolVal => (JsonObject.boolean boolVal).toStr doubles
  | .number numberVal => (JsonObject.number numberVal).toStr doubles

/-- The loop over an array; a comma stands before each item but the first. -/
def writeItems (doubles : Doubles D) (layout : Layout) (indent : Nat) (first : Bool) : List (JsonObject D) → List UInt8
  | [] => []
  | item::items => (if first then [] else 0x2c::layout.newline) ++ layout.indented (indent + 1) ++
      item.write doubles layout (indent + 1) ++ writeItems doubles layout indent false items

/-- The loop over the members of an object. -/
def writeMembers (doubles : Doubles D) (layout : Layout) (indent : Nat) (first : Bool) :
    List (List UInt8 × JsonObject D) → List UInt8
  | [] => []
  | (key,value)::members => (if first then [] else 0x2c::layout.newline) ++ layout.indented (indent + 1) ++ serializeStr key ++
      layout.besideColon ++ 0x3a::layout.besideColon ++ value.write doubles layout (indent + 1) ++
      writeMembers doubles layout indent false members

end

/-- `JsonObject::Serialize`. -/
def JsonObject.serialize (doubles : Doubles D) (o : JsonObject D) : List UInt8 := o.write doubles compact 0

/-- `JsonObject::PrettySerialize`. -/
def JsonObject.prettySerialize (doubles : Doubles D) (o : JsonObject D) : List UInt8 := o.write doubles pretty 0

/-! ### Reading -/

/-- The first loop of `_parse_number`. -/
def numberText (numStr : List UInt8) (input : Input) : List UInt8 × Input :=
  match read : input.getc.1 with
  | none => (numStr,input.getc.2.ungetc)
  | some ch => if isNumeric ch then numberText (numStr ++ [ch]) input.getc.2 else (numStr,input.getc.2.ungetc)
termination_by input.view.length
decreasing_by exact Input.getc_shorter read

/-- `_parse_number`. -/
def parseNumber (doubles : Doubles D) (input : Input) : D × Input × Bool :=
  let read := numberText [] input
  ((doubles.strtod read.1).1,read.2,(doubles.strtod read.1).2 = read.1.length)

/-- `set_number`: of the constructors of `JsonObject`, those for numbers take a second argument, which nothing gives
    them, and the one for `bool` takes the number. -/
def setNumber (doubles : Doubles D) (f : D) : JsonObject D := .boolean (doubles.toBool f)

/-- `operator[]` of `std::map` as it is assigned to. -/
def assign (key : List UInt8) (value : JsonObject D) :
    List (List UInt8 × JsonObject D) → List (List UInt8 × JsonObject D)
  | [] => [(key,value)]
  | member::members =>
    if key < member.1 then (key,value)::member::members
    else if key = member.1 then (key,value)::members
    else member::assign key value members

/-- `operator[]` of `std::map` as it is read: a key that is new gets the null object. -/
def lookup (key : List UInt8) (members : List (List UInt8 × JsonObject D)) : JsonObject D :=
  ((members.find? fun member => member.1 = key).map Prod.snd).getD .null

/-- The rest of a word whose first letter was read. -/
def parseWord (pattern : List UInt8) (value out : JsonObject D) (input : Input) : JsonObject D × Input × Bool :=
  match input.match_ pattern with
  | (true,input) => (value,input,true)
  | (false,input) => (out,input,false)

mutual

/-- `_parse` in a `default_parse_context` that was given `out`, watched for a number of steps. -/
def parseValue (doubles : Doubles D) : Nat → JsonObject D → Input → Except Failure (JsonObject D × Input × Bool)
  | 0,_,_ => .error .endless
  | fuel+1,out,input =>
    let input := input.skipWs
    match input.getc.1 with
    | none => .ok (out,input.getc.2.ungetc,false)
    | some ch =>
      let input := input.getc.2
      if ch = 0x6e then .ok (parseWord (text "ull") .null out input)
      else if ch = 0x66 then .ok (parseWord (text "alse") (.boolean false) out input)
      else if ch = 0x74 then .ok (parseWord (text "rue") (.boolean true) out input)
      else if ch = 0x22 then
        match parseString [] input with
        | (bytes,input,read) => .ok (.string bytes,input,read)
      else if ch = 0x5b then
        match input.expect 0x5d with
        | (true,input) => .ok (.array [],input,true)
        | (false,input) => parseItems doubles fuel [] input
      else if ch = 0x7b then
        match input.expect 0x7d with
        | (true,input) => .ok (.object [],input,true)
        | (false,input) => parseMembers doubles fuel [] input
      else if (0x30 ≤ ch && ch ≤ 0x39) || ch = 0x2d then
        match parseNumber doubles input.ungetc with
        | (f,input,true) => .ok (setNumber doubles f,input,true)
        | (_,input,false) => .ok (out,input,false)
      else .ok (out,input.ungetc,false)

/-- The loop of `_parse_array` with the items so far. -/
def parseItems (doubles : Doubles D) : Nat → List (JsonObject D) → Input → Except Failure (JsonObject D × Input × Bool)
  | 0,_,_ => .error .endless
  | fuel+1,items,input =>
    match parseValue doubles fuel .null input with
    | .error failure => .error failure
    | .ok (item,input,false) => .ok (.array (items ++ [item]),input,false)
    | .ok (item,input,true) =>
      match input.expect 0x2c with
      | (true,input) => parseItems doubles fuel (items ++ [item]) input
      | (false,input) =>
        match input.expect 0x5d with
        | (closed,input) => .ok (.array (items ++ [item]),input,closed)

/-- The loop of `_parse_object` with the members so far. -/
def parseMembers (doubles : Doubles D) :
    Nat → List (List UInt8 × JsonObject D) → Input → Except Failure (JsonObject D × Input × Bool)
  | 0,_,_ => .error .endless
  | fuel+1,members,input =>
    match input.expect 0x22 with
    | (false,input) => .ok (.object members,input,false)
    | (true,input) =>
      match parseString [] input with
      | (_,input,false) => .ok (.object members,input,false)
      | (key,input,true) =>
        match input.expect 0x3a with
        | (false,input) => .ok (.object members,input,false)
        | (true,input) =>
          match parseValue doubles fuel (lookup key members) input with
          | .error failure => .error failure
          | .ok (value,input,false) => .ok (.object (assign key value members),input,false)
          | .ok (value,input,true) =>
            match input.expect 0x2c with
            | (true,input) => parseMembers doubles fuel (assign key value members) input
            | (false,input) =>
              match input.expect 0x7d with
              | (closed,input) => .ok (.object (assign key value members),input,closed)

end

/-- The rest of the line as it is shown in an error. -/
def restOfLine (err : List UInt8) (input : Input) : List UInt8 :=
  match read : input.getc.1 with
  | none => err
  | some ch => if ch = 0x0a then err else restOfLine (if ch ≥ 0x20 then err ++ [ch] else err) input.getc.2
termination_by input.view.length
decreasing_by exact Input.getc_shorter read

/-- `Parse`: the text of the error, which is empty when there is none, and the root after the call. -/
def parse (doubles : Doubles D) (json : List UInt8) (root : JsonObject D) : Except Failure (List UInt8 × JsonObject D) :=
  match parseValue doubles (2 * json.length + 1) root (.start json) with
  | .error failure => .error failure
  | .ok (root,_,true) => .ok ([],root)
  | .ok (root,input,false) =>
    .ok (restOfLine (text ("syntax error at line " ++ toString input.line ++ " near: ")) input,root)

/-! ### Every text is read to an answer -/

variable {doubles : Doubles D} {fuel : Nat}

theorem numberText_length (numStr : List UInt8) (input : Input) :
    (numberText numStr input).2.view.length ≤ input.view.length := by
  fun_induction numberText numStr input with
  | case1 numStr input => rw [Input.getc_ungetc]
  | case2 numStr input ch read _ ih => exact ih.trans (Input.getc_shorter read).le
  | case3 numStr input => rw [Input.getc_ungetc]

theorem parseWord_length {pattern : List UInt8} {value out read : JsonObject D} {input after : Input}
    (ran : parseWord pattern value out input = (read,after,true)) : after.view.length ≤ input.view.length := by
  rw [parseWord] at ran
  split at ran
  case h_1 matched =>
    cases ran
    exact Input.match_length matched
  case h_2 => cases ran

/-- There is an answer, and where something was read no more is left than there was. -/
def Answers (input : Input) (result : Except Failure (JsonObject D × Input × Bool)) : Prop :=
  ∃ value after read, result = .ok (value,after,read) ∧ (read = true → after.view.length ≤ input.view.length)

theorem answers_mono {input input' : Input} {result : Except Failure (JsonObject D × Input × Bool)}
    (answers : Answers input' result)
    (less : input'.view.length ≤ input.view.length) : Answers input result := by
  obtain ⟨value,after,read,ran,left⟩ := answers
  exact ⟨value,after,read,ran,fun done => (left done).trans less⟩

theorem parseWord_answers {pattern : List UInt8} {value out : JsonObject D} {input input' : Input}
    (less : input'.view.length ≤ input.view.length) : Answers input (.ok (parseWord pattern value out input')) := by
  refine ⟨_,_,_,rfl,fun done => ?_⟩
  have ran : parseWord pattern value out input' = (_,_,true) := Prod.ext rfl (Prod.ext rfl done)
  exact (parseWord_length ran).trans less

theorem parseItems_answers
    (value : ∀ out input, 2 * input.view.length < fuel → Answers input (parseValue doubles fuel out input))
    (items : ∀ done input, 2 * input.view.length + 1 < fuel → Answers input (parseItems doubles fuel done input))
    (done : List (JsonObject D)) (input : Input) (enough : 2 * input.view.length + 1 < fuel + 1) :
    Answers input (parseItems doubles (fuel + 1) done input) := by
  obtain ⟨item,after,read,ran,left⟩ := value .null input (by omega)
  rw [parseItems,ran]
  cases read with
  | false => exact ⟨_,_,_,rfl,fun never => nomatch never⟩
  | true =>
    have less := left rfl
    dsimp only
    split
    case h_1 next comma =>
      have shorter := Input.expect_length comma
      simp only [Bool.toNat_true] at shorter
      exact answers_mono (items _ _ (by omega)) (by omega)
    case h_2 next other =>
      have kept := Input.expect_length other
      have closing := Input.expect_length (Prod.eta (next.expect 0x5d)).symm
      exact ⟨_,_,_,rfl,fun _ => by simp only [Bool.toNat_false] at kept; omega⟩

theorem parseMembers_answers
    (value : ∀ out input, 2 * input.view.length < fuel → Answers input (parseValue doubles fuel out input))
    (members : ∀ done input, 2 * input.view.length + 1 < fuel → Answers input (parseMembers doubles fuel done input))
    (done : List (List UInt8 × JsonObject D)) (input : Input) (enough : 2 * input.view.length + 1 < fuel + 1) :
    Answers input (parseMembers doubles (fuel + 1) done input) := by
  rw [parseMembers]
  split
  case h_1 => exact ⟨_,_,_,rfl,fun never => nomatch never⟩
  case h_2 opened quote =>
    have first := Input.expect_length quote
    split
    case h_1 => exact ⟨_,_,_,rfl,fun never => nomatch never⟩
    case h_2 key named string =>
      have second := parseString_length string
      split
      case h_1 => exact ⟨_,_,_,rfl,fun never => nomatch never⟩
      case h_2 parted colon =>
        have third := Input.expect_length colon
        simp only [Bool.toNat_true] at first third
        obtain ⟨item,after,read,ran,left⟩ := value (lookup key done) parted (by omega)
        rw [ran]
        cases read with
        | false => exact ⟨_,_,_,rfl,fun never => nomatch never⟩
        | true =>
          have less := left rfl
          dsimp only
          split
          case h_1 next comma =>
            have shorter := Input.expect_length comma
            simp only [Bool.toNat_true] at shorter
            exact answers_mono (members _ _ (by omega)) (by omega)
          case h_2 next other =>
            have kept := Input.expect_length other
            have closing := Input.expect_length (Prod.eta (next.expect 0x7d)).symm
            exact ⟨_,_,_,rfl,fun _ => by simp only [Bool.toNat_false] at kept; omega⟩

theorem parseValue_answers
    (items : ∀ done input, 2 * input.view.length + 1 < fuel → Answers input (parseItems doubles fuel done input))
    (members : ∀ done input, 2 * input.view.length + 1 < fuel → Answers input (parseMembers doubles fuel done input))
    (out : JsonObject D) (input : Input) (enough : 2 * input.view.length < fuel + 1) :
    Answers input (parseValue doubles (fuel + 1) out input) := by
  have skipped := Input.skipWs_length input
  rw [parseValue]
  dsimp only
  split
  case h_1 => exact ⟨_,_,_,rfl,fun never => nomatch never⟩
  case h_2 ch read =>
    have shorter := Input.getc_shorter read
    split
    case isTrue => exact parseWord_answers (by omega)
    split
    case isTrue => exact parseWord_answers (by omega)
    split
    case isTrue => exact parseWord_answers (by omega)
    split
    case isTrue =>
      refine ⟨_,_,_,rfl,fun done => ?_⟩
      have string : parseString [] input.skipWs.getc.2 = (_,_,true) := Prod.ext rfl (Prod.ext rfl done)
      exact (parseString_length string).trans (by omega)
    split
    case isTrue =>
      split
      case h_1 next closed =>
        have less := Input.expect_length closed
        exact ⟨_,_,_,rfl,fun _ => by omega⟩
      case h_2 next opened =>
        have less := Input.expect_length opened
        rw [Bool.toNat_false] at less
        exact answers_mono (items _ _ (by omega)) (by omega)
    split
    case isTrue =>
      split
      case h_1 next closed =>
        have less := Input.expect_length closed
        exact ⟨_,_,_,rfl,fun _ => by omega⟩
      case h_2 next opened =>
        have less := Input.expect_length opened
        rw [Bool.toNat_false] at less
        exact answers_mono (members _ _ (by omega)) (by omega)
    split
    case isTrue =>
      have less := numberText_length [] input.skipWs.getc.2.ungetc
      rw [Input.getc_ungetc] at less
      split
      case h_1 f next number =>
        obtain rfl : (numberText [] input.skipWs.getc.2.ungetc).2 = next := congrArg (fun read => read.2.1) number
        exact ⟨_,_,_,rfl,fun _ => less.trans skipped⟩
      case h_2 => exact ⟨_,_,_,rfl,fun never => nomatch never⟩
    case isFalse => exact ⟨_,_,_,rfl,fun never => nomatch never⟩

/-- More steps are watched than a text can make the functions take. -/
theorem answers (doubles : Doubles D) (fuel : Nat) :
    (∀ out input, 2 * input.view.length < fuel → Answers input (parseValue doubles fuel out input)) ∧
    (∀ done input, 2 * input.view.length + 1 < fuel → Answers input (parseItems doubles fuel done input)) ∧
    (∀ done input, 2 * input.view.length + 1 < fuel → Answers input (parseMembers doubles fuel done input)) := by
  induction fuel with
  | zero =>
    refine ⟨fun _ _ few => ?_,fun _ _ few => ?_,fun _ _ few => ?_⟩
    all_goals exact absurd few (Nat.not_lt_zero _)
  | succ fuel ih =>
    obtain ⟨value,items,members⟩ := ih
    exact ⟨parseValue_answers items members,parseItems_answers value items,parseMembers_answers value members⟩

/-- `Parse` comes to an answer about every text. -/
theorem parse_returns (doubles : Doubles D) (json : List UInt8) (root : JsonObject D) :
    ∃ result, parse doubles json root = .ok result := by
  obtain ⟨value,after,read,ran,-⟩ := (answers doubles (2 * json.length + 1)).1 root (.start json) (Nat.lt_succ_self _)
  rw [parse,ran]
  cases read <;> exact ⟨_,rfl⟩

end StegoDisk.Json
