import Mathlib.Logic.Function.Basic
import Par3.Foundations.JavaScript

/-!
# The options of the command line

Options come as arguments or as the properties of an object, such as one of a configuration file. Each
has its own parser; a table says what type an option has.
-/
namespace Par3

open JavaScript

/-- A value of an option; what a function of the table makes can be of another kind. -/
inductive JsValue (α : Type*)
  | undefined
  | null
  | bool (value : Bool)
  | number (value : Number)
  | bigint (value : ℤ)
  | string (text : Text)
  | array (items : List (JsValue α))
  | object (properties : List (Text × JsValue α))
  | other (value : α)

variable {α : Type*}

/-- Whether `if(value)` takes the branch. -/
def JsValue.truthy : JsValue α → Bool
  | undefined => false
  | null => false
  | bool value => value
  | number value => value.isTruthy
  | bigint value => value ≠ 0
  | string text => text ≠ []
  | array _ => true
  | object _ => true
  | other _ => true

def JsValue.isFalse : JsValue α → Bool
  | bool value => !value
  | _ => false

/-- What the parsers use of the language. -/
structure JsRuntime (α : Type*) extends CaseMapping where
  /-- `'' + value`, for what is not a string -/
  textOf : JsValue α → Text

def JsRuntime.toText (runtime : JsRuntime α) : JsValue α → Text
  | .string text => text
  | value => runtime.textOf value

/-- An exception of the parsers, or one of the language. -/
inductive ArgError
  | message (text : Text)
  | runtime
  deriving DecidableEq

/-- A message with the name of an option or an argument. -/
def ArgError.about (before : String) (name : Text) (after : String) : ArgError :=
  message (before.toList ++ name ++ after.toList)

/-! ## Sizes and times -/

/-- `RE_DIGITS` -/
def isDigits (s : Text) : Bool := !s.isEmpty && s.all digit

/-- Digits, with a minus sign or without. -/
def signed (s : Text) : Option ℤ :=
  match s with
  | '-' :: digits => if isDigits digits then some (-(natural digits : ℤ)) else none
  | digits => if isDigits digits then some (natural digits) else none

/-- The factors of a unit, each of which is multiplied with by itself. -/
def sizeFactors (unit : Text) : Option (List ℕ) :=
  match unit with
  | ['E'] => some [1024, 1024, 1024, 1024, 1024, 1024, 1]
  | ['P'] => some [1024, 1024, 1024, 1024, 1024, 1]
  | ['T'] => some [1024, 1024, 1024, 1024, 1]
  | ['G'] => some [1024, 1024, 1024, 1]
  | ['M'] => some [1024, 1024, 1]
  | ['K'] => some [1024, 1]
  | ['B'] => some [1]
  | _ => none

def timeFactors (unit : Text) : Option (List ℕ) :=
  match unit with
  | ['w'] => some [7, 24, 60, 60, 1000]
  | ['d'] => some [24, 60, 60, 1000]
  | ['h'] => some [60, 60, 1000]
  | ['m'] => some [60, 1000]
  | ['s'] => some [1000]
  | ['m', 's'] => some []
  | _ => none

/-- A number with a unit, rounded down; no number for what does not match. -/
def withUnit (factors : Text → Option (List ℕ)) (s : Text) : Option Number :=
  let digits := s.takeWhile fun c => digit c || c == '.'
  if digits.isEmpty then none
  else
    (factors (s.drop digits.length)).bind fun factors =>
      let num := factors.foldl (fun num factor => num.times factor) (decimal digits)
      if num = .nan then none else some num.floor

section
variable (runtime : JsRuntime α)

/-- `parseSize` of a string -/
def parseSizeText (s : Text) : Option Number :=
  if isDigits s then some (Number.ofRat (natural s)).floor.maxZero
  else withUnit sizeFactors (runtime.toUpperCase s)

/-- A number, or `false` -/
def parseSize : JsValue α → Option Number
  | .number s => some s.floor.maxZero
  | s => parseSizeText runtime (runtime.toText s)

def parseTimeText (s : Text) : Option Number :=
  if isDigits s then some ((Number.ofRat (natural s)).times 1000).floor.maxZero
  else withUnit timeFactors (runtime.toLowerCase s)

def parseTime : JsValue α → Option Number
  | .number s => some (s.times 1000).floor.maxZero
  | s => parseTimeText runtime (runtime.toText s)

end

/-! ## Tables of options -/

/-- All other types are taken for `string`. -/
inductive ArgType
  | bool
  | list
  | array
  | map
  | map2
  | int
  | negInt
  | size
  | size0
  | time
  | enum
  | string
  deriving DecidableEq

def ArgType.isMultiple : ArgType → Bool
  | list => true
  | array => true
  | map => true
  | map2 => true
  | _ => false

structure ArgOption (α : Type*) where
  type : ArgType
  aliasChar : Text
  enum : List Text
  default : Option (JsValue α)
  ifSetDefault : Option (JsValue α)
  required : Bool
  fn : Option (JsValue α → Except ArgError (JsValue α))

namespace ArgOption

variable (o : ArgOption α)

/-- `if(o.fn) value = o.fn(value)` -/
def apply (value : JsValue α) : Except ArgError (JsValue α) :=
  match o.fn with
  | some fn => fn value
  | none => .ok value

/-- The value of an option of several values without any. -/
def blank : JsValue α :=
  match o.type with
  | .map => .object []
  | .map2 => .object []
  | _ => .array []

end ArgOption

/-- The names that any object has -/
def inherited : List Text := ["constructor".toList, "__proto__".toList]

/-- The name that a result has the other arguments under -/
def positional : Text := ['_']

/-- A table of options. An option with the name of the other arguments is no map. -/
structure ArgTable (α : Type*) where
  entries : List (Text × ArgOption α)
  nodup : (entries.map Prod.fst).Nodup
  positional_type : ∀ o, (positional, o) ∈ entries → o.type ≠ .map ∧ o.type ≠ .map2

/-- `opts[key]`; an inherited property has no type. -/
def ArgTable.get (opts : ArgTable α) (key : Text) : Option (ArgOption α) :=
  match opts.entries.find? fun entry => entry.1 = key with
  | some entry => some entry.2
  | none => if inherited.contains key then some ⟨.string, [], [], none, none, false, none⟩ else none

/-- The last option with an alias, if its name is not empty -/
def ArgTable.aliasMap (opts : ArgTable α) (c : Char) : Option (Text × ArgOption α) :=
  match (opts.entries.filter fun entry => entry.2.aliasChar = [c]).getLast? with
  | some (key, o) => if key.isEmpty then none else some (key, o)
  | none => none

/-- The properties of a result. -/
abbrev ArgResult (α : Type*) := Text → Option (JsValue α)

namespace ArgResult

variable (ret : ArgResult α)

/-- `key in ret` -/
def isIn (key : Text) : Bool := (ret key).isSome || inherited.contains key

def store (key : Text) (value : JsValue α) : ArgResult α := Function.update ret key (some value)

end ArgResult

/-- `ret[key][name] = value`, where nothing is stored for the name of the prototype. -/
def setProperty (properties : List (Text × JsValue α)) (name : Text) (value : JsValue α) :
    List (Text × JsValue α) :=
  if name = "__proto__".toList then properties
  else (properties.filter fun property => property.1 ≠ name) ++ [(name, value)]

/-- A name of at least one character, a separator and a value, all on one line. -/
def matchEntry : Text → Option (Text × Text)
  | [] => none
  | first :: rest =>
    let name := rest.takeWhile fun c => c ≠ '=' ∧ c ≠ ':'
    match rest.drop name.length with
    | [] => none
    | _ :: value => if (first :: rest).any lineEnd then none else some (first :: name, value)

section
variable (runtime : JsRuntime α)

/-- The parts of a list -/
def listItems (val : Text) : List (JsValue α) :=
  (val.splitOn ',').map fun s => .string (runtime.toLowerCase (trim s))

/-- An entry of a map -/
def addEntry (key : Text) (o : ArgOption α) (properties : List (Text × JsValue α)) (s : Text) :
    Except ArgError (List (Text × JsValue α)) :=
  match matchEntry s with
  | some (name, value) => .ok (setProperty properties (trim name) (.string (trim value)))
  | none =>
    if o.type = .map2 then .ok (setProperty properties (trim s) .undefined)
    else .error (.about "Invalid format for `" key "`")

end

/-! ## Arguments -/

/-- A result, and the options whose functions are still to be applied. -/
structure ArgState (α : Type*) where
  ret : ArgResult α
  applyFn : List Text

section
variable (runtime : JsRuntime α) (opts : ArgTable α)

/-- Whether there is no value, so that `ifSetDefault` stands for it. -/
def missing (val : JsValue α) (explicit : Bool) : Bool :=
  match val with
  | .undefined => true
  | .string text => text.isEmpty && !explicit
  | _ => false

/-- A string is added to the values of an option. -/
def addValue (key : Text) (o : ArgOption α) (val : Text) (current : JsValue α) :
    Except ArgError (JsValue α) :=
  match o.type, current with
  | .list, .array items => .ok (.array (items ++ listItems runtime val))
  | .array, .array items => .ok (.array (items ++ [.string val]))
  | .map, .object properties => (addEntry key o properties val).map .object
  | .map2, .object properties => (addEntry key o properties val).map .object
  | _, _ => .error .runtime

/-- `setKey` for the types of several values -/
def setMultiple (state : ArgState α) (key : Text) (o : ArgOption α) (val : JsValue α) (explicit : Bool) :
    Except ArgError (ArgState α) :=
  if missing val explicit then
    if o.ifSetDefault.isNone || state.ret.isIn key then .error (.about "No value specified for `" key "`")
    else .ok { state with ret := state.ret.store key .null }
  else
    match val with
    | .bool false =>
      if state.ret.isIn key then
        match state.ret key with
        | some (.bool false) => .error (.about "Option `" key "` specified more than once")
        | _ => .error (.about "Conflicting values passed for `" key "`")
      else .ok { state with ret := state.ret.store key (.bool false) }
    | .string val =>
      match state.ret key with
      | none =>
        -- an inherited property is changed in place
        if inherited.contains key then
          match o.blank with
          | .object _ => (addEntry key o [] val).map fun _ => state
          | _ => .error .runtime
        else
          (addValue runtime key o val o.blank).map fun value =>
            ⟨state.ret.store key value, if o.fn.isSome then state.applyFn.insert key else state.applyFn⟩
      | some current =>
        if current.truthy then
          (addValue runtime key o val current).map fun value =>
            ⟨state.ret.store key value, if o.fn.isSome then state.applyFn.insert key else state.applyFn⟩
        else
          match current with
          | .null => .error (.about "No value specified for `" key "`")
          | _ => .error (.about "Conflicting values passed for `" key "`")
    | _ => .error .runtime

/-- The value of an option of one value, before its function -/
def singleValue (key : Text) (o : ArgOption α) (val : JsValue α) : Except ArgError (JsValue α) :=
  match o.type with
  | .int =>
    match val with
    | .string s =>
      let number := (Number.ofRat (natural s)).toInt32
      if isDigits s ∧ 0 ≤ number then .ok (.number (.finite number))
      else .error (.about "Invalid number specified for `" key "`")
    | .number number =>
      -- a number has no `match`
      if number.toInt32 < 0 then .error (.about "Invalid number specified for `" key "`") else .error .runtime
    | _ => .error .runtime
  | .negInt =>
    match val with
    | .string s =>
      match signed s with
      | some value => .ok (.number (.finite (Number.ofRat value).toInt32))
      | none => .error (.about "Invalid number specified for `" key "`")
    | _ => .error .runtime
  | .size =>
    match parseSize runtime val with
    | some number =>
      if number.isTruthy then .ok (.number number) else .error (.about "Invalid size specified for `" key "`")
    | none => .error (.about "Invalid size specified for `" key "`")
  | .size0 =>
    match parseSize runtime val with
    | some number => .ok (.number number)
    | none => .error (.about "Invalid size specified for `" key "`")
  | .time =>
    match parseTime runtime val with
    | some number => .ok (.number number)
    | none => .error (.about "Invalid time specified for `" key "`")
  | .enum =>
    if o.enum.contains (runtime.toLowerCase (runtime.toText val)) then .ok val
    else .error (.about "Invalid value specified for `" key "`")
  | _ => .ok val

/-- `ifSetDefault` stands for no value. -/
def givenValue (key : Text) (o : ArgOption α) (val : JsValue α) (explicit : Bool) :
    Except ArgError (JsValue α) :=
  if missing val explicit then
    match o.ifSetDefault with
    | some val => .ok val
    | none => .error (.about "No value specified for `" key "`")
  else .ok val

/-- The value of a switch -/
def boolValue (key : Text) (val : JsValue α) : Except ArgError (JsValue α) :=
  match val with
  | .bool value => .ok (.bool value)
  | .string s =>
    let s := runtime.toLowerCase s
    if s = "true".toList then .ok (.bool true)
    else if s = "false".toList ∨ s = "0".toList then .ok (.bool false)
    else .error (.about "Unexpected value for `" key "`")
  | _ => .error .runtime

def setKey (state : ArgState α) (key : Text) (val : JsValue α) (explicit : Bool) :
    Except ArgError (ArgState α) :=
  match opts.get key with
  | none => .error (.about "Unknown option `" key "`")
  | some o =>
    if state.ret.isIn key ∧ ¬ o.type.isMultiple then
      .error (.about "Option `" key "` specified more than once")
    else if o.type = .bool then
      (boolValue runtime key val).bind fun value => (o.apply value).bind fun value =>
        .ok { state with ret := state.ret.store key value }
    else
      match explicit, val with
      | false, .string ('-' :: c :: rest) =>
        .error (.message ("Potentially incorrect usage - trying to set `".toList ++ key ++ "` to `".toList ++
          '-' :: c :: rest ++ "`; if you intend this, please specify `--".toList ++ key ++ '=' :: '-' :: c :: rest ++
          "` instead".toList))
      | _, _ =>
        if o.type.isMultiple then setMultiple runtime state key o val explicit
        else
          (givenValue key o val explicit).bind fun val =>
            (singleValue runtime key o val).bind fun value => (o.apply value).bind fun value =>
              .ok { state with ret := state.ret.store key value }

/-- The next argument is the value, if it does not look like an option. -/
def setNext (state : ArgState α) (key : Text) (next : Option Text) : Except ArgError (ArgState α × Bool) :=
  match next with
  | none => (setKey runtime opts state key .undefined false).map (·, false)
  | some ('-' :: _ :: _) => (setKey runtime opts state key .undefined false).map (·, false)
  | some next => (setKey runtime opts state key (.string next) false).map (·, true)

/-- An argument with two dashes, and whether the next argument is its value -/
def readLong (state : ArgState α) (k : Text) (next : Option Text) : Except ArgError (ArgState α × Bool) :=
  if runtime.toLowerCase (k.take 3) = "no-".toList then
    if '=' ∈ k then .error (.about "Unexpected value specified in `--" k "`")
    else
      let key := runtime.toLowerCase (k.drop 3)
      if (opts.get key).any fun o => !o.type.isMultiple && o.type ≠ .bool then
        .error (.about "Cannot specify `--" k "`")
      else (setKey runtime opts state key (.bool false) true).map (·, false)
  else if '=' ∈ k then
    let name := k.takeWhile fun c => c ≠ '='
    (setKey runtime opts state (runtime.toLowerCase name) (.string (k.drop (name.length + 1))) true).map (·, false)
  else
    let key := runtime.toLowerCase k
    if (opts.get key).any fun o => o.type = .bool then
      (setKey runtime opts state key (.bool true) true).map (·, false)
    else setNext runtime opts state key next

/-- The characters of an argument with one dash from a position on -/
def readShort (arg : Text) (next : Option Text) : ℕ → Text → ArgState α → Except ArgError (ArgState α × Bool)
  | _, [], state => .ok (state, false)
  | j, c :: rest, state =>
    match opts.aliasMap c with
    | none => .error (.about "Unknown option specified in `" arg "`")
    | some (key, o) =>
      if o.type = .bool ∧ rest.head? ≠ some '=' then
        (setKey runtime opts state key (.bool true) true).bind (readShort arg next (j + 1) rest)
      else
        match rest with
        | [] => setNext runtime opts state key next
        | '=' :: value => (setKey runtime opts state key (.string value) true).map (·, false)
        | value =>
          if j + 1 > 2 then
            .error (.message ("Ambiguous option `".toList ++ arg ++ "` supplied, as `".toList ++ value.take 1 ++
              "` (`".toList ++ key ++ "`) expects a value; please check usage".toList))
          else (setKey runtime opts state key (.string value) false).map (·, false)

/-- The arguments that belong to no option -/
def push (state : ArgState α) (args : List Text) : ArgState α :=
  match state.ret positional with
  | some (.array items) => { state with ret := state.ret.store positional (.array (items ++ args.map .string)) }
  | _ => state

/-- The loop over the arguments, of which the first one may be a value that has been read. -/
def readArgs : Bool → List Text → ArgState α → Except ArgError (ArgState α)
  | _, [], state => .ok state
  | true, _ :: rest, state => readArgs false rest state
  | false, arg :: rest, state =>
    match arg with
    | ['-', '-'] => .ok (push state rest)
    | '-' :: '-' :: k => (readLong runtime opts state k rest.head?).bind fun (state, used) => readArgs used rest state
    | '-' :: short =>
      (readShort runtime opts arg rest.head? 1 short state).bind fun (state, used) => readArgs used rest state
    | arg => readArgs false rest (push state [arg])

/-- The functions of options of several values -/
def applyFns (ret : ArgResult α) (keys : List Text) : Except ArgError (ArgResult α) :=
  keys.foldlM (fun ret key =>
    match opts.get key, ret key with
    | some o, some value => (o.apply value).map (ret.store key)
    | _, _ => .ok ret) ret

/-- The value that stands for one that is falsy -/
def settle (o : ArgOption α) (value : JsValue α) : JsValue α :=
  if value.truthy then value
  else
    match value with
    | .null => o.ifSetDefault.getD .undefined
    | _ => o.blank

/-- The defaults, and the values of options of several values. -/
def settleAll (ret : ArgResult α) : Except ArgError (ArgResult α) :=
  opts.entries.foldlM (fun ret (entry : Text × ArgOption α) =>
    let (k, o) := entry
    let ret : ArgResult α :=
      match ret k, o.default with
      | none, some value => if inherited.contains k then ret else ret.store k value
      | some value, _ => if o.type.isMultiple then ret.store k (settle o value) else ret
      | none, none => ret
    if ¬ ret.isIn k ∧ o.required then .error (.about "Missing value for `" k "`") else .ok ret) ret

/-- The parser of arguments -/
def parseArgv (argv : List Text) : Except ArgError (ArgResult α) :=
  (readArgs runtime opts false argv ⟨fun key => if key = positional then some (.array []) else none, []⟩).bind
    fun state => (applyFns opts state.ret state.applyFn).bind (settleAll opts)

end

/-! ## Objects -/

section
variable (runtime : JsRuntime α) (opts : ArgTable α)

/-- Strings are converted to what the type expects. -/
def preConvert (k : Text) (opt : ArgOption α) (v : JsValue α) : Except ArgError (JsValue α) :=
  match v with
  | .string s =>
    match opt.type with
    | .bool =>
      let s := runtime.toLowerCase s
      if s = "true".toList ∨ s = "1".toList then .ok (.bool true)
      else if s = "false".toList ∨ s = "0".toList ∨ s = [] then .ok (.bool false)
      else .error (.about "Invalid value specified for `" k "`")
    | .negInt | .int =>
      match signed s with
      | some value => .ok (.number (.finite (Number.ofRat value).toInt32))
      | none => .error (.about "Invalid number specified for `" k "`")
    | .size | .size0 =>
      match parseSize runtime v with
      | some number => .ok (.number number)
      | none => .ok (.bool false)
    | .time =>
      match parseTime runtime v with
      | some number => .ok (.number number)
      | none => .error (.about "Invalid time specified for `" k "`")
    | .array | .list | .map | .map2 => .ok (.array [v])
    | _ => .ok v
  | _ => .ok v

/-- The check of numbers, which are converted to 32 bits -/
def checkNumber (k : Text) (opt : ArgOption α) (v : JsValue α) : Except ArgError (JsValue α) :=
  match v with
  | .number number =>
    if opt.type = .negInt ∨ 0 ≤ number.toInt32 then .ok (.number (.finite number.toInt32))
    else .error (.about "Invalid value specified for `" k "`")
  | _ => .error (.about "Invalid value specified for `" k "`")

/-- The items of a list; what is no string has no `toLowerCase`. -/
def listValue (items : List (JsValue α)) : Except ArgError (List (JsValue α)) :=
  items.foldlM (fun list s =>
    match s with
    | .string s => .ok (list ++ ((runtime.toLowerCase s).splitOn ',').map fun s => .string (trim s))
    | _ => .error .runtime) []

def mapValue (k : Text) (opt : ArgOption α) (items : List (JsValue α)) :
    Except ArgError (List (Text × JsValue α)) :=
  items.foldlM (fun properties s =>
    match s with
    | .string s => addEntry k opt properties s
    | _ => .error (.about "Invalid format for `" k "`")) []

/-- The value of an option after its conversion, before its function -/
def checkValue (k : Text) (opt : ArgOption α) (v : JsValue α) : Except ArgError (JsValue α) :=
  match opt.type with
  | .bool =>
    match v with
    | .bool value => .ok (.bool value)
    | .number number =>
      if number = .finite 1 then .ok (.bool true)
      else if number = .finite 0 then .ok (.bool false)
      else .error (.about "Invalid value specified for `" k "`")
    | .null => .ok (.bool false)
    | _ => .error (.about "Invalid value specified for `" k "`")
  | .size =>
    if ¬ v.truthy then .error (.about "Invalid size specified for `" k "`") else checkNumber k opt v
  | .size0 =>
    if v.isFalse then .error (.about "Invalid size specified for `" k "`") else checkNumber k opt v
  | .negInt | .int | .time => checkNumber k opt v
  | .list =>
    match v with
    | .array items => (listValue runtime items).map .array
    | _ => .error (.about "Invalid value specified for `" k "`")
  | .array =>
    match v with
    | .array items => .ok (.array items)
    | _ => .error (.about "Invalid value specified for `" k "`")
  | .map | .map2 =>
    match v with
    | .array items => (mapValue k opt items).map .object
    | .object properties => .ok (.object properties)
    | .other value => .ok (.other value)
    | _ => .error (.about "Invalid value specified for `" k "`")
  | .enum =>
    if opt.enum.contains (runtime.toLowerCase (runtime.toText v)) then .ok v
    else .error (.about "Invalid value specified for `" k "`")
  | .string => .ok v

/-- The value of an option that is set -/
def objectValue (k : Text) (opt : ArgOption α) (v : JsValue α) : Except ArgError (JsValue α) :=
  (preConvert runtime k opt v).bind fun v => (checkValue runtime k opt v).bind opt.apply

/-- One property of the object -/
def readProperty (ret : ArgResult α) (property : Text × JsValue α) : Except ArgError (ArgResult α) :=
  let (k, v) := property
  let k := runtime.toLowerCase k
  match opts.get k with
  | none => .ok ret
  | some opt =>
    if ret.isIn k then .error (.about "Option `" k "` specified more than once")
    else if opt.type = .bool then (objectValue runtime k opt v).map (ret.store k)
    else
      match v, opt.ifSetDefault, opt.default with
      | .bool true, some value, _ => .ok (ret.store k value)
      | .null, _, some value => .ok (ret.store k value)
      | .bool false, _, _ => .ok ret
      | .null, _, none => .ok ret
      | v, _, _ => (objectValue runtime k opt v).map (ret.store k)

/-- `parseObject` -/
def parseObject (config : List (Text × JsValue α)) : Except ArgError (ArgResult α) :=
  (config.foldlM (readProperty runtime opts) fun _ => none).map fun ret =>
    opts.entries.foldl (fun ret entry =>
      match entry.2.default with
      | some value => if ret.isIn entry.1 then ret else ret.store entry.1 value
      | none => ret) ret

end

end Par3
