import Mathlib.Data.Finset.Sort
import StegoDisk.StegoStorage

/-!
`utils/stego_config.h`, the names of the two factories and the parts of
`utils/json_object.h` and `carrier_files_manager.cc` that read and use a configuration. `Init`
assigns the encoder, the two permutations and the path of ffprobe, and adds to the list of
included types and to the settings of file types: what an earlier document put there stays.
-/
namespace StegoDisk

/-- The bytes of a literal. -/
def text (s : String) : List UInt8 := s.toList.map fun c => UInt8.ofNat c.toNat

/-- `JsonObject`. No number is ever read. -/
inductive JsonObject
  | null
  | boolean (value : Bool)
  | number
  | string (value : List UInt8)
  | object (members : List (List UInt8 × JsonObject))
  | array (items : List JsonObject)

namespace JsonObject

/-- `operator[]` with a key: the null object where there is no such member. -/
def field (json : JsonObject) (key : List UInt8) : JsonObject :=
  match json with
  | .object members => ((members.find? fun entry => entry.1 = key).map Prod.snd).getD .null
  | _ => .null

/-- `ToString` of a constant object. -/
def toString : JsonObject → List UInt8
  | .string value => value
  | .boolean value => if value then text "true" else text "false"
  | _ => []

/-- `ToString` of an object that may be changed: what is no string becomes an empty one. -/
def makeString : JsonObject → List UInt8
  | .string value => value
  | _ => []

def isString : JsonObject → Bool
  | .string _ => true
  | _ => false

def isObject : JsonObject → Bool
  | .object _ => true
  | _ => false

/-- The items of an array, and none of anything else. -/
def items : JsonObject → List JsonObject
  | .array items => items
  | _ => []

end JsonObject

/-- `EncoderFactory::kDefaultEncoder`. -/
def defaultEncoder : EncoderType := .hamming

/-- `PermutationFactory::kDefaultPermutation`. -/
def defaultPermutation : PermutationType := .feistelMix

/-- `EncoderFactory::GetEncoderName`. -/
def getEncoderName : EncoderType → List UInt8
  | .lsb => text "lsb"
  | .hamming => text "hamming"

/-- `EncoderFactory::GetEncoderType`. -/
def getEncoderType (encoder : List UInt8) : EncoderType :=
  let name := encoder.map toLower
  if name = text "lsb" then .lsb
  else if name = text "hamming" then .hamming
  else defaultEncoder

/-- `PermutationFactory::GetPermutationName`. -/
def getPermutationName : PermutationType → List UInt8
  | .identity => text "identity"
  | .affine => text "affine"
  | .affine64 => text "affine64"
  | .feistelNum => text "num_feistel"
  | .feistelMix => text "mix_feistel"

/-- `PermutationFactory::GetPermutationType`. -/
def getPermutationType (permutation : List UInt8) : PermutationType :=
  let name := permutation.map toLower
  if name = text "identity" then .identity
  else if name = text "affine" then .affine
  else if name = text "affine64" then .affine64
  else if name = text "num_feistel" then .feistelNum
  else if name = text "mix_feistel" then .feistelMix
  else defaultPermutation

@[simp] theorem getEncoderType_name (e : EncoderType) : getEncoderType (getEncoderName e) = e := by cases e <;> rfl

@[simp] theorem getPermutationType_name (p : PermutationType) : getPermutationType (getPermutationName p) = p := by
  cases p <;> rfl

/-- The members of the one `StegoConfig` object; encoder and permutations are zero before the first `Init`. -/
structure Settings where
  stegoConfigLoaded : Bool := false
  ffprobePath : List UInt8 := []
  encoder : EncoderType := .lsb
  globalPerm : PermutationType := .identity
  localPerm : PermutationType := .identity
  includeList : Finset (List UInt8) := ∅
  fileConfig : List UInt8 → Option (EncoderType × PermutationType) := fun _ => none

namespace Settings

/-- The step for an item of `include_types`. -/
def includeType (list : Finset (List UInt8)) (item : JsonObject) : Finset (List UInt8) :=
  if item.isString then insert item.toString list else list

/-- The step for an item of `file_types`. -/
def addFileType (config : List UInt8 → Option (EncoderType × PermutationType)) (item : JsonObject) :
    List UInt8 → Option (EncoderType × PermutationType) :=
  if item.isObject ∧ (item.field (text "file_type")).isString then
    Function.update config (item.field (text "file_type")).makeString (some
      (getEncoderType (item.field (text "encoder")).makeString,
        getPermutationType (item.field (text "permutation")).makeString))
  else config

/-- `StegoConfig::Init`. -/
def init (s : Settings) (config : JsonObject) : Settings where
  stegoConfigLoaded := true
  ffprobePath := (config.field (text "ffprobe_path")).toString
  encoder := getEncoderType (config.field (text "encoder")).toString
  globalPerm := getPermutationType (config.field (text "glob_perm")).toString
  localPerm := getPermutationType (config.field (text "local_perm")).toString
  includeList := (config.field (text "include_types")).items.foldl includeType s.includeList
  fileConfig := (config.field (text "file_types")).items.foldl addFileType s.fileConfig

/-- `SupportedFormats`. -/
def supportedFormats : List (List UInt8) := [text "jpg",text "bmp",text "png",text "mkv",text "mp4"]

instance : IsTrans (List UInt8) (· ≤ ·) := ⟨fun _ _ _ => List.le_trans⟩
instance : Std.Total (α := List UInt8) (· ≤ ·) := ⟨List.le_total⟩
instance : Std.Antisymm (α := List UInt8) (· ≤ ·) := ⟨fun _ _ => List.le_antisymm⟩

/-- `CarrierFilesManager::CreateFilterFromConfig`: the included types that are supported, in the order of
    the set, each followed by a bar, less the last bar. -/
def createFilter (s : Settings) : List UInt8 :=
  if s.stegoConfigLoaded then
    (((s.includeList.sort (· ≤ ·)).filter (supportedFormats.contains ·)).flatMap fun format => format ++ text "|").dropLast
  else []

/-- `CarrierFileFactory::CreatePermutation`. -/
def createPermutation (s : Settings) (extension : List UInt8) : Permutation :=
  .fresh (match s.fileConfig extension with
    | some (_,permutation) => permutation
    | none => s.localPerm)

/-! ### What a document adds -/

/-- The types that a document includes. -/
def includedTypes (config : JsonObject) : List (List UInt8) :=
  ((config.field (text "include_types")).items.filter JsonObject.isString).map JsonObject.toString

/-- The file type that an item has settings for. -/
def typeName (item : JsonObject) : Option (List UInt8) :=
  if item.isObject ∧ (item.field (text "file_type")).isString then some (item.field (text "file_type")).makeString else none

/-- The file types that a document has settings for. -/
def configuredTypes (config : JsonObject) : List (List UInt8) := (config.field (text "file_types")).items.filterMap typeName

theorem mem_foldl_includeType {items : List JsonObject} {list : Finset (List UInt8)} {x : List UInt8} :
    x ∈ items.foldl includeType list ↔ x ∈ list ∨ x ∈ (items.filter JsonObject.isString).map JsonObject.toString := by
  induction items generalizing list with
  | nil => simp
  | cons item rest ih =>
    rw [List.foldl_cons,ih,includeType]
    by_cases named : item.isString = true
    · simp only [named,if_true,Finset.mem_insert,List.filter_cons_of_pos,List.map_cons,List.mem_cons]
      tauto
    · simp only [named,Bool.false_eq_true,if_false,List.filter_cons_of_neg,not_false_iff]

theorem mem_init_includeList {s : Settings} {config : JsonObject} {x : List UInt8} :
    x ∈ (s.init config).includeList ↔ x ∈ s.includeList ∨ x ∈ includedTypes config :=
  mem_foldl_includeType

theorem init_fileConfig (s : Settings) (config : JsonObject) :
    (s.init config).fileConfig = (config.field (text "file_types")).items.foldl addFileType s.fileConfig := rfl

/-- The settings of a file type after some items: those before them, or those that the last item for
    the type gives, whatever there was before. -/
theorem foldl_addFileType (items : List JsonObject) (k : List UInt8) :
    (k ∉ items.filterMap typeName → ∀ config, items.foldl addFileType config k = config k) ∧
      (k ∈ items.filterMap typeName → ∃ value, ∀ config, items.foldl addFileType config k = some value) := by
  induction items using List.reverseRecOn with
  | nil => simp
  | append_singleton items item ih =>
    obtain ⟨kept,given⟩ := ih
    simp only [List.foldl_append,List.foldl_cons,List.foldl_nil,List.filterMap_append,List.mem_append,addFileType]
    by_cases named : item.isObject = true ∧ (item.field (text "file_type")).isString = true
    · have type : typeName item = some (item.field (text "file_type")).makeString := if_pos named
      simp only [if_pos named,List.filterMap_cons_some type,List.filterMap_nil,List.mem_singleton]
      by_cases same : k = (item.field (text "file_type")).makeString
      · exact ⟨fun other => absurd (.inr same) other,fun _ => ⟨_,fun config => by rw [same,Function.update_self]⟩⟩
      · refine ⟨fun other config => ?_,fun member => ?_⟩
        · rw [Function.update_of_ne same]
          exact kept (fun member => other (.inl member)) config
        · obtain ⟨value,values⟩ := given (member.resolve_right same)
          exact ⟨value,fun config => by rw [Function.update_of_ne same,values]⟩
    · have type : typeName item = none := if_neg named
      simp only [if_neg named,List.filterMap_cons_none type,List.filterMap_nil,List.not_mem_nil,or_false]
      exact ⟨kept,given⟩

/-- The types that a run of documents includes and has settings for are those of all of them. -/
theorem foldl_init (earlier : List JsonObject) (k : List UInt8) :
    (k ∈ (earlier.foldl init {}).includeList ↔ ∃ config ∈ earlier, k ∈ includedTypes config) ∧
      ((earlier.foldl init {}).fileConfig k ≠ none ↔ ∃ config ∈ earlier, k ∈ configuredTypes config) := by
  induction earlier using List.reverseRecOn with
  | nil => simp
  | append_singleton earlier config ih =>
    obtain ⟨lists,types⟩ := ih
    simp only [List.foldl_append,List.foldl_cons,List.foldl_nil,mem_init_includeList,lists,List.mem_append,
      List.mem_singleton,or_and_right,exists_or,exists_eq_left,true_and]
    obtain ⟨kept,given⟩ := foldl_addFileType (config.field (text "file_types")).items k
    by_cases named : k ∈ configuredTypes config
    · obtain ⟨value,values⟩ := given named
      simp only [named,or_true,iff_true]
      rw [init_fileConfig,values]
      simp
    · simp only [named,or_false]
      rw [init_fileConfig,kept named]
      exact types

/-- The configuration after some documents, and what a later `Open` takes from it, is that after the last one alone. -/
structure LastWins (earlier : List JsonObject) (last : JsonObject) : Prop where
  settings : (earlier ++ [last]).foldl init {} = init {} last
  filter : ((earlier ++ [last]).foldl init {}).createFilter = (init {} last).createFilter
  permutations : ∀ extension, ((earlier ++ [last]).foldl init {}).createPermutation extension =
    (init {} last).createPermutation extension

/-- A document that names all that the earlier ones named leaves what it leaves alone. -/
theorem init_of_covered {earlier : List JsonObject} {last : JsonObject}
    (covered : ∀ config ∈ earlier, includedTypes config ⊆ includedTypes last ∧
      configuredTypes config ⊆ configuredTypes last) :
    (earlier.foldl init {}).init last = init {} last := by
  have lists : ((earlier.foldl init {}).init last).includeList = (init {} last).includeList := by
    ext x
    rw [mem_init_includeList,mem_init_includeList,(foldl_init earlier x).1]
    constructor
    · rintro (⟨config,member,included⟩ | included)
      · exact .inr ((covered config member).1 included)
      · exact .inr included
    · rintro (none | included)
      · simp at none
      · exact .inr included
  have types : ((earlier.foldl init {}).init last).fileConfig = (init {} last).fileConfig := by
    funext k
    obtain ⟨kept,given⟩ := foldl_addFileType (last.field (text "file_types")).items k
    by_cases named : k ∈ configuredTypes last
    · obtain ⟨value,values⟩ := given named
      rw [init_fileConfig,init_fileConfig,values,values]
    · rw [init_fileConfig,init_fileConfig,kept named,kept named]
      by_contra there
      obtain ⟨config,member,configured⟩ := (foldl_init earlier k).2.mp there
      exact named ((covered config member).2 configured)
  simp only [init] at lists types ⊢
  rw [lists,types]

/-- The last document wins exactly when it includes every type and has settings for every file type that
    an earlier one does. -/
theorem lastWins_iff (earlier : List JsonObject) (last : JsonObject) :
    LastWins earlier last ↔ ∀ config ∈ earlier, includedTypes config ⊆ includedTypes last ∧
      configuredTypes config ⊆ configuredTypes last := by
  have after : (earlier ++ [last]).foldl init {} = (earlier.foldl init {}).init last := by
    rw [List.foldl_append,List.foldl_cons,List.foldl_nil]
  constructor
  · rintro ⟨same,_,_⟩ config member
    rw [after] at same
    constructor
    · intro x included
      have there := (foldl_init earlier x).1.mpr ⟨config,member,included⟩
      have kept : x ∈ (init {} last).includeList := by
        rw [← same,mem_init_includeList]
        exact .inl there
      simpa using mem_init_includeList.mp kept
    · intro k configured
      by_contra unnamed
      have there := (foldl_init earlier k).2.mpr ⟨config,member,configured⟩
      have kept := (foldl_addFileType (last.field (text "file_types")).items k).1 unnamed
      have values := congrFun (congrArg fileConfig same) k
      rw [init_fileConfig,init_fileConfig,kept,kept] at values
      exact there values
  · intro covered
    have same := after.trans (init_of_covered covered)
    exact ⟨same,by rw [same],fun _ => by rw [same]⟩

/-- A document that includes one type. -/
def including (format : String) : JsonObject := .object [(text "include_types",.array [.string (text format)])]

theorem not_lastWins_png : ¬ LastWins [including "bmp"] (including "png") := by
  intro wins
  have kept : text "bmp" ∈ (([including "bmp"] ++ [including "png"]).foldl init {}).includeList := by decide
  rw [wins.settings] at kept
  revert kept
  decide

end Settings
end StegoDisk
