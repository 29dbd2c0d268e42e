import Mathlib.Data.Nat.Digits.Lemmas
import StegoDisk.Json

/-!
What is read of a tree that was written, in either layout. Everything comes back but for the numbers: each is read
exactly and becomes a boolean.
-/
namespace StegoDisk.Json

variable {D : Type} {doubles : Doubles D}

/-! ### Trees -/

mutual

/-- Every number of a tree and the keys of each of its objects have a property. -/
def JsonObject.Every (number : D → Prop) (keys : List (List UInt8) → Prop) : JsonObject D → Prop
  | .number numberVal => number numberVal
  | .object members => keys (members.map Prod.fst) ∧ EveryMember number keys members
  | .array items => EveryItem number keys items
  | .null => True
  | .boolean _ => True
  | .string _ => True

def EveryItem (number : D → Prop) (keys : List (List UInt8) → Prop) : List (JsonObject D) → Prop
  | [] => True
  | item::items => item.Every number keys ∧ EveryItem number keys items

def EveryMember (number : D → Prop) (keys : List (List UInt8) → Prop) : List (List UInt8 × JsonObject D) → Prop
  | [] => True
  | member::members => member.2.Every number keys ∧ EveryMember number keys members

end

/-- The keys of an object stand in their order, each once. -/
def Sorted (keys : List (List UInt8)) : Prop := keys.Pairwise (· < ·)

/-- A tree whose objects are maps. -/
abbrev Tree (D : Type) := {o : JsonObject D // o.Every (fun _ => True) Sorted}

/-- The numbers of a tree are integers of magnitude below 2⁵³. -/
def JsonObject.Integers (doubles : Doubles D) (o : JsonObject D) : Prop :=
  o.Every (fun numberVal => doubles.isInteger numberVal) fun _ => True

/-- A tree without numbers. -/
def JsonObject.NumberFree (o : JsonObject D) : Prop := o.Every (fun _ => False) fun _ => True

mutual

/-- The tree with its numbers replaced by booleans. -/
def JsonObject.truths (doubles : Doubles D) : JsonObject D → JsonObject D
  | .number numberVal => setNumber doubles numberVal
  | .object members => .object (truthsMembers doubles members)
  | .array items => .array (truthsItems doubles items)
  | .null => .null
  | .boolean boolVal => .boolean boolVal
  | .string bytes => .string bytes

def truthsItems (doubles : Doubles D) : List (JsonObject D) → List (JsonObject D)
  | [] => []
  | item::items => item.truths doubles::truthsItems doubles items

def truthsMembers (doubles : Doubles D) : List (List UInt8 × JsonObject D) → List (List UInt8 × JsonObject D)
  | [] => []
  | member::members => (member.1,member.2.truths doubles)::truthsMembers doubles members

end

/-- `printf` and `strtod` are exact on integers of magnitude below 2⁵³: what is printed are digits, perhaps behind a
    sign, and the number that is read from them is the one that was printed. -/
structure Doubles.Exact (doubles : Doubles D) : Prop where
  starts : ∀ x, doubles.isInteger x →
    ∃ ch others, doubles.printF x = ch::others ∧ ((0x30 ≤ ch && ch ≤ 0x39) || ch = 0x2d) = true
  numeric : ∀ x, doubles.isInteger x → (doubles.printF x).all isNumeric
  reads : ∀ x, doubles.isInteger x → doubles.strtod (doubles.printF x) = (x,(doubles.printF x).length)

/-! ### Pieces -/

/-- Nothing that could belong to a number comes next. -/
def Stops (others : List UInt8) : Prop := ∀ ch, others.head? = some ch → isNumeric ch = false

variable {input : Input} {blanks others : List UInt8} {ch : UInt8}

theorem dropWhile_blanks (blank : blanks.all isBlank) (next : isBlank ch = false) :
    (blanks ++ ch::others).dropWhile isBlank = ch::others := by
  rw [List.dropWhile_append_of_pos (by simpa using blank),List.dropWhile_cons_of_neg (by simp [next])]

theorem not_numeric_of_blank (blank : isBlank ch) : isNumeric ch = false := by
  simp only [isBlank,Bool.or_eq_true,decide_eq_true_eq] at blank
  rcases blank with ((rfl | rfl) | rfl) | rfl <;> decide

/-- A blank or a byte that ends a value ends a number. -/
theorem stops_blanks (blank : blanks.all isBlank) (next : isNumeric ch = false) : Stops (blanks ++ ch::others) := by
  intro first head
  cases blanks with
  | nil =>
    obtain rfl : ch = first := by simpa using head
    exact next
  | cons b blanks =>
    obtain rfl : b = first := by simpa using head
    rw [List.all_cons,Bool.and_eq_true] at blank
    exact not_numeric_of_blank blank.1

theorem expect_blanks (view : input.view = blanks ++ ch::others) (blank : blanks.all isBlank)
    (next : isBlank ch = false) :
    ∃ after, input.expect ch = (true,after) ∧ after.view = others :=
  Input.expect_ok (by rw [view,dropWhile_blanks blank next])

theorem expect_other (view : input.view = blanks ++ ch::others) (blank : blanks.all isBlank) (next : isBlank ch = false)
    {expected : UInt8} (other : ch ≠ expected) :
    ∃ after, input.expect expected = (false,after) ∧ after.view = ch::others := by
  have dropped : input.view.dropWhile isBlank = ch::others := by rw [view,dropWhile_blanks blank next]
  have head : (input.view.dropWhile isBlank).head? ≠ some expected := by simpa [dropped] using other
  obtain ⟨after,fails,rest⟩ := Input.expect_other head
  exact ⟨after,fails,rest.trans dropped⟩

theorem numberText_ok {text others : List UInt8} (numStr : List UInt8) (numeric : text.all isNumeric)
    (stops : Stops others)
    (view : input.view = text ++ others) :
    ∃ after, numberText numStr input = (numStr ++ text,after) ∧ after.view = others := by
  induction text generalizing numStr input with
  | nil =>
    refine ⟨input.getc.2.ungetc,?_,by rw [Input.getc_ungetc,view]; rfl⟩
    rw [numberText,List.append_nil]
    split
    case h_1 => rfl
    case h_2 ch read =>
      rw [Input.getc_fst,view] at read
      rw [if_neg (by simp [stops ch read])]
  | cons digit text ih =>
    simp only [List.all_cons,Bool.and_eq_true] at numeric
    have rest : input.getc.2.view = text ++ others := by rw [Input.getc_view,view]; rfl
    obtain ⟨after,read,last⟩ := ih (numStr ++ [digit]) numeric.2 rest
    refine ⟨after,?_,last⟩
    rw [numberText]
    split
    case h_1 none_ => simp [view] at none_
    case h_2 ch next =>
      obtain rfl : digit = ch := by simpa [view] using next
      rw [if_pos numeric.1,read,List.append_assoc,List.singleton_append]

/-- A key behind all others is added at the end. -/
theorem assign_last {key : List UInt8} {value : JsonObject D} {members : List (List UInt8 × JsonObject D)}
    (before : ∀ member ∈ members, member.1 < key) : assign key value members = members ++ [(key,value)] := by
  induction members with
  | nil => rfl
  | cons member members ih =>
    have smaller := before member List.mem_cons_self
    have other : key ≠ member.1 := fun same => List.lt_irrefl _ (same ▸ smaller)
    rw [assign,if_neg (List.lt_asymm smaller),if_neg other,ih fun m inside => before m (List.mem_cons_of_mem _ inside)]
    rfl

/-! ### Values -/

/-- How the text of a value begins: with no blank and not with the end of an array. -/
theorem write_head (exact_ : doubles.Exact) (layout : Layout) (indent : Nat) {o : JsonObject D}
    (integers : o.Integers doubles) :
    ∃ ch others, o.write doubles layout indent = ch::others ∧ isBlank ch = false ∧ ch ≠ 0x5d := by
  cases o with
  | null => exact ⟨0x6e,text "ull",rfl,by decide,by decide⟩
  | boolean boolVal =>
    cases boolVal with
    | false => exact ⟨0x66,text "alse",rfl,by decide,by decide⟩
    | true => exact ⟨0x74,text "rue",rfl,by decide,by decide⟩
  | number numberVal =>
    have isInteger : doubles.isInteger numberVal := by simpa [JsonObject.Integers,JsonObject.Every] using integers
    obtain ⟨ch,others,prints,start⟩ := exact_.starts numberVal isInteger
    have numeric := exact_.numeric numberVal isInteger
    rw [prints,List.all_cons,Bool.and_eq_true] at numeric
    refine ⟨ch,others,?_,?_,?_⟩
    · rw [JsonObject.write,JsonObject.toStr,if_pos isInteger,prints]
    · by_contra blank
      have not_ := not_numeric_of_blank (by simpa using blank)
      simp [numeric.1] at not_
    · rintro rfl
      revert start
      decide
  | string bytes => exact ⟨0x22,_,by rw [JsonObject.write,serializeStr]; rfl,by decide,by decide⟩
  | object members => exact ⟨0x7b,_,by rw [JsonObject.write]; rfl,by decide,by decide⟩
  | array items => exact ⟨0x5b,_,by rw [JsonObject.write]; rfl,by decide,by decide⟩

/-- A number that was written is read as the number it was, and a boolean is made of it. -/
theorem parseValue_number (exact_ : doubles.Exact) {x : D} (isInteger : doubles.isInteger x) (fuel : Nat)
    (out : JsonObject D)
    (blank : blanks.all isBlank) (stops : Stops others) (view : input.view = blanks ++ (doubles.printF x ++ others)) :
    ∃ after, parseValue doubles (fuel + 1) out input = .ok (setNumber doubles x,after,true) ∧ after.view = others := by
  obtain ⟨ch,digits,prints,start⟩ := exact_.starts x isInteger
  have numeric := exact_.numeric x isInteger
  have notBlank : isBlank ch = false := by
    by_contra blank
    have not_ := not_numeric_of_blank (by simpa using blank)
    simp_all
  have dropped : input.skipWs.view = doubles.printF x ++ others := by
    rw [Input.skipWs_view,view,prints,List.cons_append,dropWhile_blanks blank notBlank]
  have next : input.skipWs.getc.1 = some ch := by rw [Input.getc_fst,dropped,prints]; rfl
  have again : input.skipWs.getc.2.ungetc.view = doubles.printF x ++ others := by rw [Input.getc_ungetc,dropped]
  obtain ⟨after,read,last⟩ := numberText_ok [] numeric stops again
  refine ⟨after,?_,last⟩
  have apart : ch ≠ 0x6e ∧ ch ≠ 0x66 ∧ ch ≠ 0x74 ∧ ch ≠ 0x22 ∧ ch ≠ 0x5b ∧ ch ≠ 0x7b := by
    refine ⟨?_,?_,?_,?_,?_,?_⟩ <;> (rintro rfl; revert start; decide)
  obtain ⟨n,f,t,quote,bracket,brace⟩ := apart
  have number : parseNumber doubles input.skipWs.getc.2.ungetc = (x,after,true) := by
    simp [parseNumber,read,exact_.reads x isInteger]
  simp only [parseValue,next,n,f,t,quote,bracket,brace,if_false,number]
  rw [if_pos start]

/-- What `_parse` looks at first: behind blanks, the byte of a value. -/
theorem first_byte (blank : blanks.all isBlank) (notBlank : isBlank ch = false)
    (view : input.view = blanks ++ ch::others) :
    input.skipWs.getc.1 = some ch ∧ input.skipWs.getc.2.view = others := by
  have dropped : input.skipWs.view = ch::others := by rw [Input.skipWs_view,view,dropWhile_blanks blank notBlank]
  constructor
  · rw [Input.getc_fst,dropped]
    rfl
  · rw [Input.getc_view,dropped]
    rfl

/-- A word that was written is read, where its first letter leads to the rest of it. -/
theorem parseValue_word {pattern : List UInt8} {value out : JsonObject D} {fuel : Nat} (blank : blanks.all isBlank)
    (notBlank : isBlank ch = false) (view : input.view = blanks ++ ch::(pattern ++ others))
    (leads : input.skipWs.getc.1 = some ch →
      parseValue doubles (fuel + 1) out input = .ok (parseWord pattern value out input.skipWs.getc.2)) :
    ∃ after, parseValue doubles (fuel + 1) out input = .ok (value,after,true) ∧ after.view = others := by
  obtain ⟨next,rest⟩ := first_byte blank notBlank view
  obtain ⟨after,matched,last⟩ := Input.match_ok rest
  refine ⟨after,?_,last⟩
  rw [leads next,parseWord,matched]

theorem parseValue_string (bytes : List UInt8) (fuel : Nat) (out : JsonObject D) (blank : blanks.all isBlank)
    (view : input.view = blanks ++ (serializeStr bytes ++ others)) :
    ∃ after, parseValue doubles (fuel + 1) out input = .ok (.string bytes,after,true) ∧ after.view = others := by
  rw [serializeStr,List.cons_append,List.cons_append,List.append_assoc,List.singleton_append] at view
  obtain ⟨next,rest⟩ := first_byte blank (by decide) view
  obtain ⟨after,read,last⟩ : ∃ after, parseString [] input.skipWs.getc.2 = (bytes,after,true) ∧ after.view = others :=
    parseString_ok bytes rest
  refine ⟨after,?_,last⟩
  simp only [parseValue,next,read]
  rfl

/-- An array that begins with an item. -/
theorem parseValue_array {inner : List UInt8} (fuel : Nat) (out : JsonObject D) (blank : blanks.all isBlank)
    (blank' : inner.all isBlank)
    (notBlank : isBlank ch = false) (item : ch ≠ 0x5d) (view : input.view = blanks ++ 0x5b::(inner ++ ch::others)) :
    ∃ after, parseValue doubles (fuel + 1) out input = parseItems doubles fuel [] after ∧ after.view = ch::others := by
  obtain ⟨next,rest⟩ := first_byte blank (by decide) view
  obtain ⟨after,more,last⟩ := expect_other rest blank' notBlank item
  refine ⟨after,?_,last⟩
  simp only [parseValue,next,more]
  rfl

theorem parseValue_noItems {inner : List UInt8} (fuel : Nat) (out : JsonObject D) (blank : blanks.all isBlank)
    (blank' : inner.all isBlank) (view : input.view = blanks ++ 0x5b::(inner ++ 0x5d::others)) :
    ∃ after, parseValue doubles (fuel + 1) out input = .ok (.array [],after,true) ∧ after.view = others := by
  obtain ⟨next,rest⟩ := first_byte blank (by decide) view
  obtain ⟨after,closed,last⟩ := expect_blanks rest blank' (by decide)
  refine ⟨after,?_,last⟩
  simp only [parseValue,next,closed]
  rfl

/-- An object that begins with a member. -/
theorem parseValue_object {inner : List UInt8} (fuel : Nat) (out : JsonObject D) (blank : blanks.all isBlank)
    (blank' : inner.all isBlank) (view : input.view = blanks ++ 0x7b::(inner ++ 0x22::others)) :
    ∃ after, parseValue doubles (fuel + 1) out input = parseMembers doubles fuel [] after ∧ after.view = 0x22::others := by
  obtain ⟨next,rest⟩ := first_byte blank (by decide) view
  obtain ⟨after,more,last⟩ : ∃ after, input.skipWs.getc.2.expect 0x7d = (false,after) ∧ after.view = 0x22::others :=
    expect_other rest blank' (by decide) (by decide)
  refine ⟨after,?_,last⟩
  simp only [parseValue,next,more]
  rfl

theorem parseValue_noMembers {inner : List UInt8} (fuel : Nat) (out : JsonObject D) (blank : blanks.all isBlank)
    (blank' : inner.all isBlank) (view : input.view = blanks ++ 0x7b::(inner ++ 0x7d::others)) :
    ∃ after, parseValue doubles (fuel + 1) out input = .ok (.object [],after,true) ∧ after.view = others := by
  obtain ⟨next,rest⟩ := first_byte blank (by decide) view
  obtain ⟨after,closed,last⟩ := expect_blanks rest blank' (by decide)
  refine ⟨after,?_,last⟩
  simp only [parseValue,next,closed]
  rfl

/-- What stands behind an item ends it. -/
theorem stops_items (layout : Layout) (indent : Nat) (items : List (JsonObject D)) {closing : List UInt8}
    (blank : closing.all isBlank) :
    Stops (writeItems doubles layout indent false items ++ (closing ++ 0x5d::others)) := by
  cases items with
  | nil => exact stops_blanks blank (by decide)
  | cons item items =>
    rw [writeItems]
    exact @stops_blanks [] _ 0x2c rfl (by decide)

theorem stops_members (layout : Layout) (indent : Nat) (members : List (List UInt8 × JsonObject D))
    {closing : List UInt8}
    (blank : closing.all isBlank) :
    Stops (writeMembers doubles layout indent false members ++ (closing ++ 0x7d::others)) := by
  cases members with
  | nil => exact stops_blanks blank (by decide)
  | cons member members =>
    rw [writeMembers]
    exact @stops_blanks [] _ 0x2c rfl (by decide)

theorem closing_blank (layout : Layout) (indent : Nat) : (layout.newline ++ layout.indented indent).all isBlank := by
  rw [List.all_append,layout.newline_blank,layout.indented_blank]
  rfl

/-- A value whose text is short enough for the steps that are watched is read with its numbers turned into booleans. -/
def ReadsValue (doubles : Doubles D) (fuel : Nat) : Prop :=
  ∀ (layout : Layout) (indent : Nat) (o out : JsonObject D) (input : Input) (blanks others : List UInt8),
    o.Every (fun _ => True) Sorted → o.Integers doubles → 2 * (o.write doubles layout indent).length ≤ fuel →
    blanks.all isBlank → Stops others → input.view = blanks ++ (o.write doubles layout indent ++ others) →
    ∃ after, parseValue doubles fuel out input = .ok (o.truths doubles,after,true) ∧ after.view = others

/-- So are the items of an array, behind those that were read before. -/
def ReadsItems (doubles : Doubles D) (fuel : Nat) : Prop :=
  ∀ (layout : Layout) (indent : Nat) (item : JsonObject D) (items done : List (JsonObject D)) (input : Input)
    (blanks closing others : List UInt8), EveryItem (fun _ => True) Sorted (item::items) →
    EveryItem (fun numberVal => doubles.isInteger numberVal) (fun _ => True) (item::items) →
    2 * (item.write doubles layout (indent + 1) ++ writeItems doubles layout indent false items).length < fuel →
    blanks.all isBlank → closing.all isBlank →
    input.view = blanks ++ (item.write doubles layout (indent + 1) ++
      (writeItems doubles layout indent false items ++ (closing ++ 0x5d::others))) →
    ∃ after, parseItems doubles fuel done input = .ok (.array (done ++ truthsItems doubles (item::items)),after,true) ∧
      after.view = others

/-- So are the members of an object. -/
def ReadsMembers (doubles : Doubles D) (fuel : Nat) : Prop :=
  ∀ (layout : Layout) (indent : Nat) (member : List UInt8 × JsonObject D) (members done : List (List UInt8 × JsonObject D))
    (input : Input) (blanks closing others : List UInt8), Sorted ((done ++ member::members).map Prod.fst) →
    EveryMember (fun _ => True) Sorted (member::members) →
    EveryMember (fun numberVal => doubles.isInteger numberVal) (fun _ => True) (member::members) →
    2 * (member.2.write doubles layout (indent + 1) ++ writeMembers doubles layout indent false members).length < fuel →
    blanks.all isBlank → closing.all isBlank →
    input.view = blanks ++ (serializeStr member.1 ++ (layout.besideColon ++ 0x3a::(layout.besideColon ++
      (member.2.write doubles layout (indent + 1) ++
        (writeMembers doubles layout indent false members ++ (closing ++ 0x7d::others)))))) →
    ∃ after, parseMembers doubles fuel done input =
      .ok (.object (done ++ truthsMembers doubles (member::members)),after,true) ∧ after.view = others

variable {fuel : Nat}

theorem readsItems_succ (readsValue : ReadsValue doubles fuel) (readsItems : ReadsItems doubles fuel) :
    ReadsItems doubles (fuel + 1) := by
  intro layout indent item items done input blanks closing others ordered integers enough blank blank' view
  rw [List.length_append] at enough
  rw [EveryItem] at ordered integers
  obtain ⟨after,read,rest⟩ := readsValue layout (indent + 1) item .null input blanks _ ordered.1 integers.1 (by omega) blank
    (stops_items layout indent items blank') view
  cases items with
  | nil =>
    obtain ⟨behind,last,here⟩ : ∃ behind, after.expect 0x2c = (false,behind) ∧ behind.view = 0x5d::others :=
      expect_other rest blank' (by decide) (by decide)
    obtain ⟨final,closed,view'⟩ := expect_blanks (show behind.view = [] ++ 0x5d::others from here) rfl (by decide)
    refine ⟨final,?_,view'⟩
    simp only [parseItems,read,last,closed,truthsItems]
  | cons other items =>
    have parts : after.view = [] ++ 0x2c::((layout.newline ++ layout.indented (indent + 1)) ++
        (other.write doubles layout (indent + 1) ++
          (writeItems doubles layout indent false items ++ (closing ++ 0x5d::others)))) := by
      rw [rest]
      simp [writeItems]
    obtain ⟨behind,more,here⟩ := expect_blanks parts rfl (by decide)
    have room : 2 * (other.write doubles layout (indent + 1) ++ writeItems doubles layout indent false items).length < fuel := by
      simp only [writeItems,Bool.false_eq_true,if_false,List.length_append,List.length_cons] at enough ⊢
      omega
    obtain ⟨final,tail,view'⟩ := readsItems layout indent other items (done ++ [item.truths doubles]) behind _ closing others
      ordered.2 integers.2 room (closing_blank layout (indent + 1)) blank' here
    refine ⟨final,?_,view'⟩
    simp only [parseItems,read,more,tail,truthsItems,List.append_assoc,List.singleton_append]

theorem readsMembers_succ (readsValue : ReadsValue doubles fuel) (readsMembers : ReadsMembers doubles fuel) :
    ReadsMembers doubles (fuel + 1) := by
  intro layout indent member members done input blanks closing others sorted ordered integers enough blank blank' view
  rw [List.length_append] at enough
  rw [EveryMember] at ordered integers
  -- the key, the colon and the value
  rw [serializeStr,List.cons_append,List.cons_append,List.append_assoc,List.singleton_append] at view
  obtain ⟨opened,quote,rest⟩ := expect_blanks view blank (by decide)
  obtain ⟨named,readKey,rest⟩ : ∃ named, parseString [] opened = (member.1,named,true) ∧ named.view = _ :=
    parseString_ok member.1 rest
  obtain ⟨parted,colon,rest⟩ := expect_blanks rest layout.besideColon_blank (by decide)
  obtain ⟨after,read,rest⟩ := readsValue layout (indent + 1) member.2 (lookup member.1 done) parted _ _ ordered.1 integers.1
    (by omega) layout.besideColon_blank (stops_members layout indent members blank') rest
  have last : assign member.1 (member.2.truths doubles) done = done ++ [(member.1,member.2.truths doubles)] := by
    refine assign_last fun earlier inside => ?_
    rw [Sorted,List.map_append] at sorted
    exact (List.pairwise_append.mp sorted).2.2 _ (List.mem_map_of_mem inside) _ (by simp)
  cases members with
  | nil =>
    obtain ⟨behind,single,here⟩ : ∃ behind, after.expect 0x2c = (false,behind) ∧ behind.view = 0x7d::others :=
      expect_other rest blank' (by decide) (by decide)
    obtain ⟨final,closed,view'⟩ := expect_blanks (show behind.view = [] ++ 0x7d::others from here) rfl (by decide)
    refine ⟨final,?_,view'⟩
    simp only [parseMembers,quote,readKey,colon,read,single,closed,last,truthsMembers]
  | cons other members =>
    have parts : after.view = [] ++ 0x2c::((layout.newline ++ layout.indented (indent + 1)) ++ (serializeStr other.1 ++
        (layout.besideColon ++ 0x3a::(layout.besideColon ++ (other.2.write doubles layout (indent + 1) ++
          (writeMembers doubles layout indent false members ++ (closing ++ 0x7d::others))))))) := by
      rw [rest]
      simp [writeMembers]
    obtain ⟨behind,more,here⟩ := expect_blanks parts rfl (by decide)
    have room : 2 * (other.2.write doubles layout (indent + 1) ++ writeMembers doubles layout indent false members).length < fuel := by
      simp only [writeMembers,Bool.false_eq_true,if_false,List.length_append,List.length_cons] at enough ⊢
      omega
    have sorted' : Sorted ((done ++ [(member.1,member.2.truths doubles)] ++ other::members).map Prod.fst) := by simpa using sorted
    obtain ⟨final,tail,view'⟩ := readsMembers layout indent other members (done ++ [(member.1,member.2.truths doubles)]) behind _
      closing others sorted' ordered.2 integers.2 room (closing_blank layout (indent + 1)) blank' here
    refine ⟨final,?_,view'⟩
    simp only [parseMembers,quote,readKey,colon,read,more,last,tail,truthsMembers,List.append_assoc,List.singleton_append]

theorem readsValue_succ (exact_ : doubles.Exact) (readsItems : ReadsItems doubles fuel)
    (readsMembers : ReadsMembers doubles fuel) :
    ReadsValue doubles (fuel + 1) := by
  intro layout indent o out input blanks others ordered integers enough blank stops view
  have closing := closing_blank layout indent
  have empty : (layout.newline ++ (layout.newline ++ layout.indented indent)).all isBlank := by
    rw [List.all_append,layout.newline_blank,closing]
    rfl
  cases o with
  | null =>
    exact parseValue_word blank (by decide) (show input.view = blanks ++ 0x6e::(text "ull" ++ others) from view) fun next => by
      simp only [parseValue,next]
      rfl
  | boolean boolVal =>
    cases boolVal with
    | false =>
      exact parseValue_word blank (by decide) (show input.view = blanks ++ 0x66::(text "alse" ++ others) from view) fun next => by
        simp only [parseValue,next]
        rfl
    | true =>
      exact parseValue_word blank (by decide) (show input.view = blanks ++ 0x74::(text "rue" ++ others) from view) fun next => by
        simp only [parseValue,next]
        rfl
  | number numberVal =>
    have isInteger : doubles.isInteger numberVal := by simpa [JsonObject.Integers,JsonObject.Every] using integers
    rw [JsonObject.write,JsonObject.toStr,if_pos isInteger] at view
    exact parseValue_number exact_ isInteger fuel out blank stops view
  | string bytes => exact parseValue_string bytes fuel out blank view
  | object members =>
    rw [JsonObject.Integers,JsonObject.Every] at integers
    rw [JsonObject.Every] at ordered
    cases members with
    | nil =>
      have parts : input.view = blanks ++ 0x7b::((layout.newline ++ (layout.newline ++ layout.indented indent)) ++ 0x7d::others) := by
        rw [view]
        simp [JsonObject.write,writeMembers]
      exact parseValue_noMembers fuel out blank empty parts
    | cons member members =>
      have parts : input.view = blanks ++ 0x7b::((layout.newline ++ layout.indented (indent + 1)) ++ (serializeStr member.1 ++
          (layout.besideColon ++ 0x3a::(layout.besideColon ++ (member.2.write doubles layout (indent + 1) ++
            (writeMembers doubles layout indent false members ++
              ((layout.newline ++ layout.indented indent) ++ 0x7d::others))))))) := by
        rw [view]
        simp [JsonObject.write,writeMembers]
      obtain ⟨inside,begun,here⟩ := parseValue_object fuel out blank (closing_blank layout (indent + 1)) parts
      have room : 2 * (member.2.write doubles layout (indent + 1) ++ writeMembers doubles layout indent false members).length < fuel := by
        simp only [JsonObject.write,writeMembers,if_true,List.length_append,List.length_cons,List.length_nil] at enough ⊢
        omega
      rw [begun]
      exact readsMembers layout indent member members [] inside [] _ others ordered.1 ordered.2 integers.2 room rfl closing here
  | array items =>
    rw [JsonObject.Integers,JsonObject.Every] at integers
    rw [JsonObject.Every] at ordered
    cases items with
    | nil =>
      have parts : input.view = blanks ++ 0x5b::((layout.newline ++ (layout.newline ++ layout.indented indent)) ++ 0x5d::others) := by
        rw [view]
        simp [JsonObject.write,writeItems]
      exact parseValue_noItems fuel out blank empty parts
    | cons item items =>
      obtain ⟨first,text,starts,notBlank,noEnd⟩ := write_head exact_ layout (indent + 1) integers.1
      have parts : input.view = blanks ++ 0x5b::((layout.newline ++ layout.indented (indent + 1)) ++
          (item.write doubles layout (indent + 1) ++ (writeItems doubles layout indent false items ++
            ((layout.newline ++ layout.indented indent) ++ 0x5d::others)))) := by
        rw [view]
        simp [JsonObject.write,writeItems]
      rw [starts,List.cons_append] at parts
      obtain ⟨inside,begun,here⟩ := parseValue_array fuel out blank (closing_blank layout (indent + 1)) notBlank noEnd parts
      have room : 2 * (item.write doubles layout (indent + 1) ++ writeItems doubles layout indent false items).length < fuel := by
        simp only [JsonObject.write,writeItems,if_true,List.length_append,List.length_cons,List.length_nil] at enough ⊢
        omega
      rw [← List.cons_append,← starts] at here
      rw [begun]
      exact readsItems layout indent item items [] inside [] _ others ordered integers room rfl closing here

/-- Each function reads what was written for it, for as many steps as its text is long. -/
theorem reads (exact_ : doubles.Exact) (fuel : Nat) :
    ReadsValue doubles fuel ∧ ReadsItems doubles fuel ∧ ReadsMembers doubles fuel := by
  induction fuel with
  | zero =>
    refine ⟨?_,?_,?_⟩
    · intro layout indent o _ _ _ _ _ integers enough
      obtain ⟨ch,rest,begins,-,-⟩ := write_head exact_ layout indent integers
      simp [begins] at enough
    · intro _ _ _ _ _ _ _ _ _ _ _ enough
      exact absurd enough (Nat.not_lt_zero _)
    · intro _ _ _ _ _ _ _ _ _ _ _ _ enough
      exact absurd enough (Nat.not_lt_zero _)
  | succ fuel ih =>
    obtain ⟨value,items,members⟩ := ih
    exact ⟨readsValue_succ exact_ items members,readsItems_succ value items,readsMembers_succ value members⟩

/-! ### Trees that survive -/

/-- Whatever the root was, a tree that was written is read without an error, and its numbers have become booleans. -/
theorem parse_write (exact_ : doubles.Exact) (layout : Layout) (o : Tree D) (integers : o.val.Integers doubles)
    (root : JsonObject D) :
    parse doubles (o.val.write doubles layout 0) root = .ok ([],o.val.truths doubles) := by
  have stops : Stops [] := fun _ head => by simp at head
  obtain ⟨after,read,-⟩ := (reads exact_ _).1 layout 0 o.val root (.start (o.val.write doubles layout 0)) [] [] o.property integers
    (Nat.le_succ _) rfl stops (List.append_nil _).symm
  rw [parse,read]

mutual

theorem truths_eq_iff (o : JsonObject D) : o.truths doubles = o ↔ o.NumberFree := by
  cases o with
  | null => simp [JsonObject.truths,JsonObject.NumberFree,JsonObject.Every]
  | boolean boolVal => simp [JsonObject.truths,JsonObject.NumberFree,JsonObject.Every]
  | number numberVal => simp [JsonObject.truths,setNumber,JsonObject.NumberFree,JsonObject.Every]
  | string bytes => simp [JsonObject.truths,JsonObject.NumberFree,JsonObject.Every]
  | object members =>
    rw [JsonObject.truths,JsonObject.NumberFree,JsonObject.Every,JsonObject.object.injEq,truthsMembers_eq_iff members]
    exact ⟨fun free => ⟨trivial,free⟩,fun free => free.2⟩
  | array items => rw [JsonObject.truths,JsonObject.NumberFree,JsonObject.Every,JsonObject.array.injEq,truthsItems_eq_iff items]

theorem truthsItems_eq_iff (items : List (JsonObject D)) :
    truthsItems doubles items = items ↔ EveryItem (fun _ => False) (fun _ => True) items := by
  cases items with
  | nil => simp [truthsItems,EveryItem]
  | cons item items =>
    rw [truthsItems,EveryItem,List.cons.injEq,truths_eq_iff item,truthsItems_eq_iff items]
    rfl

theorem truthsMembers_eq_iff (members : List (List UInt8 × JsonObject D)) :
    truthsMembers doubles members = members ↔ EveryMember (fun _ => False) (fun _ => True) members := by
  rcases members with _ | ⟨⟨key,value⟩,members⟩
  · simp [truthsMembers,EveryMember]
  · rw [truthsMembers,EveryMember,List.cons.injEq,Prod.mk.injEq,truths_eq_iff value,truthsMembers_eq_iff members]
    exact ⟨fun free => ⟨free.1.2,free.2⟩,fun free => ⟨⟨rfl,free.1⟩,free.2⟩⟩

end

/-- From either text a tree comes back as it was, and no error is reported. -/
def Survives (doubles : Doubles D) (o : JsonObject D) : Prop :=
  ∀ root, parse doubles (o.serialize doubles) root = .ok ([],o) ∧ parse doubles (o.prettySerialize doubles) root = .ok ([],o)

/-- A tree whose numbers are integers survives exactly when it has none. -/
theorem survives_iff (exact_ : doubles.Exact) (o : Tree D) (integers : o.val.Integers doubles) :
    Survives doubles o.val ↔ o.val.NumberFree := by
  have written := fun layout root => parse_write exact_ layout o integers root
  rw [← truths_eq_iff]
  constructor
  · intro survives
    have back := (survives .null).1
    rw [JsonObject.serialize,written] at back
    simpa using back
  · intro same root
    rw [JsonObject.serialize,JsonObject.prettySerialize,written,written,same]
    exact ⟨rfl,rfl⟩

/-! ### Decimal numbers -/

/-- The decimal digits of a number. -/
def decimal (n : Nat) : List UInt8 :=
  if n = 0 then [0x30] else (Nat.digits 10 n).reverse.map fun digit => UInt8.ofNat (0x30 + digit)

/-- The number that digits stand for. -/
def decimalValue (text : List UInt8) : Nat := Nat.ofDigits 10 (text.reverse.map fun ch => ch.toNat - 0x30)

/-- Integers in the place of `double`s, printed and read as decimal numbers. -/
def integerDoubles : Doubles Int where
  isInteger x := x.natAbs < 2 ^ 53
  printF x := if x < 0 then 0x2d::decimal x.natAbs else decimal x.natAbs
  printG x := if x < 0 then 0x2d::decimal x.natAbs else decimal x.natAbs
  strtod text := if text.head? = some 0x2d then (-decimalValue text.tail,text.length) else (decimalValue text,text.length)
  toBool x := x ≠ 0

theorem decimalValue_decimal (n : Nat) : decimalValue (decimal n) = n := by
  rw [decimal]
  split
  case isTrue zero => subst zero; rfl
  case isFalse =>
    have same : ∀ digit ∈ Nat.digits 10 n, ((fun ch => ch.toNat - 0x30) ∘ fun digit => UInt8.ofNat (0x30 + digit)) digit = digit := by
      intro digit inside
      have small := Nat.digits_lt_base (by decide) inside
      rw [Function.comp_apply,UInt8.toNat_ofNat_of_lt' (by simp only [UInt8.size]; omega)]
      omega
    rw [decimalValue,← List.map_reverse,List.reverse_reverse,List.map_map,List.map_congr_left same,List.map_id']
    exact Nat.ofDigits_digits 10 n

theorem decimal_digits (n : Nat) : ∀ ch ∈ decimal n, (0x30 ≤ ch && ch ≤ 0x39) = true := by
  have each : ∀ digit < 10, (0x30 ≤ UInt8.ofNat (0x30 + digit) && UInt8.ofNat (0x30 + digit) ≤ 0x39) = true := by decide
  intro ch inside
  rw [decimal] at inside
  split at inside
  case isTrue =>
    obtain rfl := List.mem_singleton.mp inside
    decide
  case isFalse =>
    obtain ⟨digit,digits,rfl⟩ := List.mem_map.mp inside
    exact each digit (Nat.digits_lt_base (by decide) (List.mem_reverse.mp digits))

theorem decimal_cons (n : Nat) : ∃ ch others, decimal n = ch::others ∧ (0x30 ≤ ch && ch ≤ 0x39) = true := by
  have some_ : decimal n ≠ [] := by
    rw [decimal]
    split <;> simp_all [Nat.digits_ne_nil_iff_ne_zero]
  obtain ⟨ch,others,whole⟩ := List.exists_cons_of_ne_nil some_
  exact ⟨ch,others,whole,decimal_digits n ch (whole ▸ List.mem_cons_self)⟩

/-- Decimal numbers are exact. -/
theorem integerDoubles_exact : integerDoubles.Exact where
  starts x _ := by
    obtain ⟨ch,others,whole,digit⟩ := decimal_cons x.natAbs
    simp only [integerDoubles]
    by_cases negative : x < 0
    · exact ⟨0x2d,_,if_pos negative,by decide⟩
    · exact ⟨ch,others,by rw [if_neg negative,whole],by simp [digit]⟩
  numeric x _ := by
    have numeric : (decimal x.natAbs).all isNumeric := by
      rw [List.all_eq_true]
      intro ch inside
      simp [isNumeric,decimal_digits _ ch inside]
    simp only [integerDoubles]
    split
    · rw [List.all_cons,numeric]
      decide
    · exact numeric
  reads x _ := by
    obtain ⟨ch,others,whole,digit⟩ := decimal_cons x.natAbs
    have value := decimalValue_decimal x.natAbs
    simp only [integerDoubles]
    by_cases negative : x < 0
    · rw [if_pos negative,List.head?_cons,if_pos rfl,List.tail_cons,value]
      simp only [Prod.mk.injEq,and_true]
      omega
    · have noSign : ch ≠ 0x2d := by
        rintro rfl
        revert digit
        decide
      rw [if_neg negative,if_neg (by simp [whole,noSign]),value]
      simp only [Prod.mk.injEq,and_true]
      omega

theorem survives_iff_items : Survives integerDoubles (.array [.null,.number (-5),.string [0x22,0x0a,0xff]]) ↔
    (JsonObject.array [.null,.number (-5),.string [0x22,0x0a,0xff]] : JsonObject Int).NumberFree :=
  survives_iff integerDoubles_exact ⟨.array [.null,.number (-5),.string [0x22,0x0a,0xff]],by simp [JsonObject.Every,EveryItem]⟩
    (by simp [JsonObject.Integers,JsonObject.Every,EveryItem,integerDoubles])

/-- The number 5 comes back as the boolean `true`. -/
theorem not_survives_five : (JsonObject.number 5 : JsonObject Int).serialize integerDoubles = [0x35] ∧
    parse integerDoubles [0x35] .null = .ok ([],.boolean true) ∧ ¬ Survives integerDoubles (.number 5) := by
  have text : (JsonObject.number 5 : JsonObject Int).serialize integerDoubles = [0x35] := by
    simp [JsonObject.serialize,JsonObject.write,JsonObject.toStr,integerDoubles,decimal]
  have read := parse_write integerDoubles_exact compact ⟨.number 5,by simp [JsonObject.Every]⟩
    (by simp [JsonObject.Integers,JsonObject.Every,integerDoubles]) .null
  change parse integerDoubles ((JsonObject.number 5 : JsonObject Int).serialize integerDoubles) .null = _ at read
  rw [text] at read
  refine ⟨text,read,fun survives => ?_⟩
  have back := (survives .null).1
  rw [text,read] at back
  cases back

end StegoDisk.Json
