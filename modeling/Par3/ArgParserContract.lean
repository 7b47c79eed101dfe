import Par3.ArgParser
import Par3.Foundations.FallibleLoops

/-!
# Where the parsers agree

Options that are given once, as arguments and as the properties of an object. Where both parsers accept them, each
has made of every string the value of its type, and the functions of the table have been applied. The parser of
objects converts sizes and times to 32 bits before, and only the parser of arguments replaces falsy values of options
of several values.
-/
namespace Par3

open JavaScript FallibleLoops

variable {α : Type*} {runtime : JsRuntime α} {opts : ArgTable α}

/-! ## The object -/

theorem readProperty_string {ret next : ArgResult α} {k s : Text} {o : ArgOption α}
    (known : opts.get (runtime.toLowerCase k) = some o)
    (read : readProperty runtime opts ret (k, .string s) = .ok next) :
    ret.isIn (runtime.toLowerCase k) = false ∧ ∃ value,
      objectValue runtime (runtime.toLowerCase k) o (.string s) = .ok value ∧
        next = ret.store (runtime.toLowerCase k) value := by
  rw [readProperty] at read
  dsimp only at read
  rw [known] at read
  dsimp only at read
  cases inside : ret.isIn (runtime.toLowerCase k) with
  | true =>
    rw [inside, if_pos rfl] at read
    cases read
  | false =>
    rw [inside, if_neg Bool.false_ne_true, ite_self] at read
    refine ⟨rfl, ?_⟩
    cases made : objectValue runtime (runtime.toLowerCase k) o (.string s) with
    | error error =>
      rw [made] at read
      cases read
    | ok value =>
      rw [made] at read
      cases read
      exact ⟨value, rfl, rfl⟩

theorem isIn_store (ret : ArgResult α) (key other : Text) (value : JsValue α) :
    (ret.store key value).isIn other = (decide (other = key) || ret.isIn other) := by
  rw [ArgResult.isIn, ArgResult.isIn, ArgResult.store, Function.update_apply]
  by_cases same : other = key
  · rw [if_pos same, decide_eq_true same]
    rfl
  · rw [if_neg same, decide_eq_false same, Bool.false_or]

/-- The properties of the object, none of which is given twice. -/
theorem readProperties {given : List (Text × Text)} {ret last : ArgResult α}
    (known : ∀ entry ∈ given, (opts.get (runtime.toLowerCase entry.1)).isSome)
    (read : (given.map fun entry => (entry.1, JsValue.string entry.2)).foldlM (readProperty runtime opts) ret =
      .ok last) :
    (given.map fun entry => runtime.toLowerCase entry.1).Nodup ∧
      (∀ entry ∈ given, ret.isIn (runtime.toLowerCase entry.1) = false) ∧
      (∀ key, key ∉ given.map (fun entry => runtime.toLowerCase entry.1) → last key = ret key) ∧
      ∀ entry ∈ given, ∀ o, opts.get (runtime.toLowerCase entry.1) = some o → ∃ value,
        objectValue runtime (runtime.toLowerCase entry.1) o (.string entry.2) = .ok value ∧
          last (runtime.toLowerCase entry.1) = some value := by
  induction given generalizing ret with
  | nil =>
    cases read
    exact ⟨List.nodup_nil, fun _ member => (nomatch member), fun _ _ => rfl, fun _ member => (nomatch member)⟩
  | cons entry given ih =>
    rw [List.map_cons, List.foldlM_cons, bind_eq_ok] at read
    obtain ⟨next, first, read⟩ := read
    obtain ⟨o, found⟩ := Option.isSome_iff_exists.mp (known entry List.mem_cons_self)
    obtain ⟨fresh, value, made, rfl⟩ := readProperty_string found first
    obtain ⟨distinct, absent, kept, values⟩ :=
      ih (fun later member => known later (List.mem_cons_of_mem _ member)) read
    have other : ∀ later ∈ given, runtime.toLowerCase later.1 ≠ runtime.toLowerCase entry.1 ∧
        ret.isIn (runtime.toLowerCase later.1) = false := by
      intro later member
      have nowhere := absent later member
      rw [isIn_store, Bool.or_eq_false_iff] at nowhere
      exact ⟨of_decide_eq_false nowhere.1, nowhere.2⟩
    have apart : runtime.toLowerCase entry.1 ∉ given.map fun entry => runtime.toLowerCase entry.1 := by
      intro member
      obtain ⟨later, inside, same⟩ := List.mem_map.mp member
      exact (other later inside).1 same
    refine ⟨?_, ?_, fun key outside => ?_, ?_⟩
    · rw [List.map_cons, List.nodup_cons]
      exact ⟨apart, distinct⟩
    · intro later member
      obtain rfl | inside := List.mem_cons.mp member
      · exact fresh
      · exact (other later inside).2
    · rw [List.map_cons, List.mem_cons, not_or] at outside
      rw [kept key outside.2, ArgResult.store, Function.update_of_ne outside.1]
    · intro later member option option_found
      obtain rfl | inside := List.mem_cons.mp member
      · rw [found] at option_found
        cases option_found
        refine ⟨value, made, ?_⟩
        rw [kept _ apart, ArgResult.store, Function.update_self]
      · exact values later inside option option_found

/-- A default does not replace what is set. -/
theorem defaults_kept (entries : List (Text × ArgOption α)) (ret : ArgResult α) {key : Text} {value : JsValue α}
    (set : ret key = some value) :
    entries.foldl (fun (ret : ArgResult α) entry =>
      match entry.2.default with
      | some value => if ret.isIn entry.1 then ret else ret.store entry.1 value
      | none => ret) ret key = some value := by
  induction entries generalizing ret with
  | nil => exact set
  | cons entry entries ih =>
    rw [List.foldl_cons]
    refine ih _ ?_
    cases entry.2.default with
    | none => exact set
    | some default =>
      dsimp only
      by_cases present : ret.isIn entry.1
      · rw [if_pos present]
        exact set
      · have other : key ≠ entry.1 := by
          rintro rfl
          refine present ?_
          rw [ArgResult.isIn, set]
          rfl
        rw [if_neg present, ArgResult.store, Function.update_of_ne other, set]

/-! ## The arguments -/

/-- `--key=value` -/
def spelled (entry : Text × Text) : Text := '-' :: '-' :: (entry.1 ++ '=' :: entry.2)

/-- An argument with a value sets its option, or it is refused. -/
theorem readArgs_spelled {entry : Text × Text} (plain : '=' ∉ entry.1) {rest : List Text} {state last : ArgState α}
    (read : readArgs runtime opts false (spelled entry :: rest) state = .ok last) : ∃ next,
      setKey runtime opts state (runtime.toLowerCase entry.1) (.string entry.2) true = .ok next ∧
        readArgs runtime opts false rest next = .ok last := by
  obtain ⟨key, value⟩ := entry
  have inside : '=' ∈ key ++ '=' :: value := List.mem_append_right _ List.mem_cons_self
  have name : (key ++ '=' :: value).takeWhile (fun c => c ≠ '=') = key := by
    rw [List.takeWhile_append_of_pos fun c member => by
      rw [decide_eq_true_eq]
      rintro rfl
      exact plain member]
    rw [List.takeWhile_cons_of_neg (by decide), List.append_nil]
  have behind : (key ++ '=' :: value).drop (key.length + 1) = value := by
    rw [← List.drop_drop, List.drop_left]
    rfl
  have long : readArgs runtime opts false (spelled (key, value) :: rest) state =
      (readLong runtime opts state (key ++ '=' :: value) rest.head?).bind
        fun next => readArgs runtime opts next.2 rest next.1 := by
    cases key <;> rfl
  rw [long, readLong] at read
  by_cases negated : runtime.toLowerCase ((key ++ '=' :: value).take 3) = "no-".toList
  · rw [if_pos negated, if_pos inside] at read
    cases read
  · rw [if_neg negated, if_pos inside] at read
    dsimp only at read
    rw [name, behind] at read
    cases set : setKey runtime opts state (runtime.toLowerCase key) (.string value) true with
    | error error =>
      rw [set] at read
      cases read
    | ok next =>
      rw [set] at read
      exact ⟨next, rfl, read⟩

/-- The result before any argument is read. -/
def unset : ArgResult α := fun key => if key = positional then some (.array []) else none

/-- What an argument makes of a string, before the function of the option. -/
def argumentValue (runtime : JsRuntime α) (key : Text) (o : ArgOption α) (s : Text) :
    Except ArgError (JsValue α) :=
  if o.type = .bool then boolValue runtime key (.string s)
  else if o.type.isMultiple then addValue runtime key o s o.blank
  else singleValue runtime key o (.string s)

theorem mem_of_get {key : Text} {o : ArgOption α} (own : inherited.contains key = false)
    (found : opts.get key = some o) : (key, o) ∈ opts.entries := by
  rw [ArgTable.get] at found
  cases place : opts.entries.find? (fun entry => entry.1 = key) with
  | none =>
    rw [place] at found
    dsimp only at found
    rw [own, if_neg Bool.false_ne_true] at found
    cases found
  | some entry =>
    rw [place] at found
    cases found
    have same := List.find?_some place
    rw [← of_decide_eq_true same]
    exact List.mem_of_find?_eq_some place

/-- The first value of an option of several values. -/
theorem setKey_multiple {state next : ArgState α} {key s : Text} {o : ArgOption α}
    (own : inherited.contains key = false) (fresh : state.ret key = unset key) (found : opts.get key = some o)
    (multiple : o.type.isMultiple) (set : setKey runtime opts state key (.string s) true = .ok next) : ∃ value,
      argumentValue runtime key o s = .ok value ∧
        next = ⟨state.ret.store key value, if o.fn.isSome then state.applyFn.insert key else state.applyFn⟩ := by
  have noSwitch : o.type ≠ .bool := by
    intro switch
    rw [switch] at multiple
    cases multiple
  have given : missing (.string s : JsValue α) true = false := Bool.and_false _
  rw [argumentValue, if_neg noSwitch, if_pos multiple]
  rw [setKey, found] at set
  dsimp only at set
  rw [if_neg (fun both => both.2 multiple), if_neg noSwitch, if_pos multiple, setMultiple, given,
    if_neg Bool.false_ne_true, fresh, unset] at set
  by_cases rest : key = positional
  · rw [if_pos rest] at set
    have blank : o.blank = .array [] := by
      subst rest
      have types := opts.positional_type o (mem_of_get own found)
      rw [ArgOption.blank]
      cases type : o.type <;> first | rfl | exact absurd type types.1 | exact absurd type types.2
    rw [blank]
    dsimp only at set
    rw [if_pos (show (JsValue.array [] : JsValue α).truthy = true from rfl)] at set
    cases added : addValue runtime key o s (.array []) with
    | error error =>
      rw [added] at set
      cases set
    | ok value =>
      rw [added] at set
      cases set
      exact ⟨value, rfl, rfl⟩
  · rw [if_neg rest] at set
    dsimp only at set
    rw [own, if_neg Bool.false_ne_true] at set
    cases added : addValue runtime key o s o.blank with
    | error error =>
      rw [added] at set
      cases set
    | ok value =>
      rw [added] at set
      cases set
      exact ⟨value, rfl, rfl⟩

/-- The value of an option of one value, whose function is applied at once. -/
theorem setKey_single {state next : ArgState α} {key s : Text} {o : ArgOption α} (found : opts.get key = some o)
    (single : ¬ o.type.isMultiple) (set : setKey runtime opts state key (.string s) true = .ok next) :
    state.ret.isIn key = false ∧ ∃ value, (argumentValue runtime key o s).bind o.apply = .ok value ∧
      next = { state with ret := state.ret.store key value } := by
  have given : missing (.string s : JsValue α) true = false := Bool.and_false _
  rw [setKey, found] at set
  dsimp only at set
  cases inside : state.ret.isIn key with
  | true =>
    rw [inside, if_pos ⟨rfl, single⟩] at set
    cases set
  | false =>
    refine ⟨rfl, ?_⟩
    rw [inside, if_neg (fun both => Bool.false_ne_true both.1)] at set
    have value : (argumentValue runtime key o s).bind (fun value => (o.apply value).bind fun value =>
        .ok { state with ret := state.ret.store key value }) = .ok next := by
      rw [argumentValue]
      by_cases switch : o.type = .bool
      · rw [if_pos switch] at set ⊢
        exact set
      · rw [if_neg switch] at set ⊢
        rw [if_neg single] at set ⊢
        rw [givenValue, given, if_neg Bool.false_ne_true] at set
        exact set
    cases made : argumentValue runtime key o s with
    | error error =>
      rw [made] at value
      cases value
    | ok plain =>
      rw [made] at value
      cases applied : o.apply plain with
      | error error =>
        rw [Except.bind, applied] at value
        cases value
      | ok result =>
        rw [Except.bind, applied] at value
        cases value
        exact ⟨result, applied, rfl⟩

/-- An option that is set to a string, where its function may still have to be applied. -/
def Stands (runtime : JsRuntime α) (state : ArgState α) (key : Text) (o : ArgOption α) (s : Text) : Prop :=
  ∃ value, state.ret key = some value ∧
    (argumentValue runtime key o s).bind (fun value => if key ∈ state.applyFn then .ok value else o.apply value) =
      .ok value

/-- What a first value of an option changes. -/
theorem setKey_fresh {state next : ArgState α} {key s : Text} (own : inherited.contains key = false)
    (fresh : state.ret key = unset key) (later : key ∉ state.applyFn)
    (set : setKey runtime opts state key (.string s) true = .ok next) :
    (∃ o, opts.get key = some o ∧ Stands runtime next key o s) ∧
      (∀ other, other ≠ key → next.ret other = state.ret other ∧
        (other ∈ next.applyFn ↔ other ∈ state.applyFn)) ∧
      (state.applyFn.Nodup → next.applyFn.Nodup) := by
  cases found : opts.get key with
  | none =>
    rw [setKey, found] at set
    cases set
  | some o =>
    by_cases multiple : o.type.isMultiple
    · obtain ⟨value, made, rfl⟩ := setKey_multiple own fresh found multiple set
      have added : o.fn.isSome = true → List.insert key state.applyFn = key :: state.applyFn :=
        fun _ => List.insert_of_not_mem later
      refine ⟨⟨o, rfl, value, Function.update_self .., ?_⟩, fun other different => ⟨?_, ?_⟩, fun distinct => ?_⟩
      · rw [made, Except.bind]
        cases function : o.fn with
        | none =>
          dsimp only
          rw [Option.isSome_none, if_neg Bool.false_ne_true, if_neg later, ArgOption.apply, function]
        | some fn =>
          dsimp only
          rw [Option.isSome_some, if_pos rfl, if_pos List.mem_insert_self]
      · exact Function.update_of_ne different _ _
      · cases function : o.fn.isSome with
        | true =>
          rw [if_pos rfl, List.mem_insert_iff]
          exact or_iff_right different
        | false => rfl
      · cases function : o.fn.isSome with
        | true => exact distinct.insert
        | false => exact distinct
    · obtain ⟨_, value, made, rfl⟩ := setKey_single found multiple set
      refine ⟨⟨o, rfl, value, Function.update_self .., ?_⟩, fun other different => ⟨?_, Iff.rfl⟩, id⟩
      · simp only [if_neg later]
        exact made
      · exact Function.update_of_ne different _ _

/-- Unknown options are refused. -/
theorem readArgs_known {given : List (Text × Text)} {state last : ArgState α} (plain : ∀ entry ∈ given, '=' ∉ entry.1)
    (read : readArgs runtime opts false (given.map spelled) state = .ok last) :
    ∀ entry ∈ given, (opts.get (runtime.toLowerCase entry.1)).isSome := by
  induction given generalizing state with
  | nil => exact fun _ member => (nomatch member)
  | cons first given ih =>
    obtain ⟨next, set, read⟩ := readArgs_spelled (plain first List.mem_cons_self) read
    intro entry member
    obtain rfl | inside := List.mem_cons.mp member
    · cases found : opts.get (runtime.toLowerCase entry.1) with
      | none =>
        rw [setKey, found] at set
        cases set
      | some o => rfl
    · exact ih (fun later member => plain later (List.mem_cons_of_mem _ member)) read entry inside

/-- Options that are given once each. -/
theorem readArgs_given {given : List (Text × Text)} {state last : ArgState α} (plain : ∀ entry ∈ given, '=' ∉ entry.1)
    (distinct : (given.map fun entry => runtime.toLowerCase entry.1).Nodup)
    (own : ∀ entry ∈ given, inherited.contains (runtime.toLowerCase entry.1) = false)
    (fresh : ∀ entry ∈ given, state.ret (runtime.toLowerCase entry.1) = unset (runtime.toLowerCase entry.1) ∧
      runtime.toLowerCase entry.1 ∉ state.applyFn)
    (once : state.applyFn.Nodup) (read : readArgs runtime opts false (given.map spelled) state = .ok last) :
    last.applyFn.Nodup ∧
      (∀ key, key ∉ given.map (fun entry => runtime.toLowerCase entry.1) →
        last.ret key = state.ret key ∧ (key ∈ last.applyFn ↔ key ∈ state.applyFn)) ∧
      ∀ entry ∈ given, ∃ o, opts.get (runtime.toLowerCase entry.1) = some o ∧
        Stands runtime last (runtime.toLowerCase entry.1) o entry.2 := by
  induction given generalizing state with
  | nil =>
    cases read
    exact ⟨once, fun _ _ => ⟨rfl, Iff.rfl⟩, fun _ member => (nomatch member)⟩
  | cons entry given ih =>
    rw [List.map_cons] at read
    rw [List.map_cons, List.nodup_cons] at distinct
    obtain ⟨next, set, read⟩ := readArgs_spelled (plain entry List.mem_cons_self) read
    obtain ⟨new, unused⟩ := fresh entry List.mem_cons_self
    obtain ⟨⟨o, found, stands⟩, others, still⟩ := setKey_fresh (own entry List.mem_cons_self) new unused set
    have different : ∀ later ∈ given, runtime.toLowerCase later.1 ≠ runtime.toLowerCase entry.1 := by
      intro later member same
      exact distinct.1 (same ▸ List.mem_map_of_mem member)
    have freshAfter : ∀ later ∈ given,
        next.ret (runtime.toLowerCase later.1) = unset (runtime.toLowerCase later.1) ∧
          runtime.toLowerCase later.1 ∉ next.applyFn := by
      intro later member
      obtain ⟨sameValue, sameFn⟩ := others _ (different later member)
      obtain ⟨before, outside⟩ := fresh later (List.mem_cons_of_mem _ member)
      exact ⟨sameValue.trans before, fun inside => outside (sameFn.mp inside)⟩
    obtain ⟨lastOnce, kept, values⟩ := ih
      (fun later member => plain later (List.mem_cons_of_mem _ member)) distinct.2
      (fun later member => own later (List.mem_cons_of_mem _ member)) freshAfter (still once) read
    refine ⟨lastOnce, fun key outside => ?_, fun later member => ?_⟩
    · rw [List.map_cons, List.mem_cons, not_or] at outside
      obtain ⟨lastValue, lastFn⟩ := kept key outside.2
      obtain ⟨sameValue, sameFn⟩ := others key outside.1
      exact ⟨lastValue.trans sameValue, lastFn.trans sameFn⟩
    · obtain rfl | inside := List.mem_cons.mp member
      · obtain ⟨lastValue, lastFn⟩ := kept _ distinct.1
        obtain ⟨value, set, made⟩ := stands
        refine ⟨o, found, value, lastValue.trans set, ?_⟩
        simp only [lastFn]
        exact made
      · exact values later inside

/-- The functions are applied once each. -/
theorem applyFns_ok {keys : List Text} {ret last : ArgResult α} (distinct : keys.Nodup)
    (applied : applyFns opts ret keys = .ok last) (key : Text) :
    (key ∉ keys → last key = ret key) ∧
      ∀ o value, key ∈ keys → opts.get key = some o → ret key = some value →
        ∃ result, o.apply value = .ok result ∧ last key = some result := by
  rw [applyFns] at applied
  induction keys generalizing ret with
  | nil =>
    cases applied
    exact ⟨fun _ => rfl, fun _ _ member => (nomatch member)⟩
  | cons first keys ih =>
    rw [List.nodup_cons] at distinct
    rw [List.foldlM_cons, bind_eq_ok] at applied
    obtain ⟨next, step, applied⟩ := applied
    obtain ⟨kept, values⟩ := ih distinct.2 applied
    have changed : (∀ other, other ≠ first → next other = ret other) ∧
        ∀ o value, opts.get first = some o → ret first = some value →
          ∃ result, o.apply value = .ok result ∧ next first = some result := by
      cases found : opts.get first with
      | none =>
        rw [found] at step
        cases step
        exact ⟨fun _ _ => rfl, fun _ _ some => (nomatch some)⟩
      | some option =>
        cases present : ret first with
        | none =>
          rw [found, present] at step
          cases step
          exact ⟨fun _ _ => rfl, fun _ _ _ some => (nomatch some)⟩
        | some given =>
          rw [found, present] at step
          dsimp only at step
          cases made : option.apply given with
          | error error =>
            rw [made] at step
            cases step
          | ok result =>
            rw [made] at step
            cases step
            refine ⟨fun other different => Function.update_of_ne different _ _, fun o value same given => ?_⟩
            cases same
            cases given
            exact ⟨result, made, Function.update_self ..⟩
    constructor
    · intro outside
      rw [List.mem_cons, not_or] at outside
      rw [kept outside.2, changed.1 key outside.1]
    · intro o value member found present
      by_cases here : key = first
      · subst here
        obtain ⟨result, made, set⟩ := changed.2 o value found present
        exact ⟨result, made, (kept distinct.1).trans set⟩
      · have inside := (List.mem_cons.mp member).resolve_left here
        exact values o value inside found ((changed.1 key here).trans present)

/-! ## The defaults -/

/-- The default of an option, or what becomes of its value after all arguments. -/
def filled (ret : ArgResult α) (entry : Text × ArgOption α) : ArgResult α :=
  match ret entry.1, entry.2.default with
  | none, some value => if inherited.contains entry.1 then ret else ret.store entry.1 value
  | some value, _ => if entry.2.type.isMultiple then ret.store entry.1 (settle entry.2 value) else ret
  | none, none => ret

/-- One option of the table, after all arguments. -/
def settleEntry (ret : ArgResult α) (entry : Text × ArgOption α) : Except ArgError (ArgResult α) :=
  if ¬ (filled ret entry).isIn entry.1 ∧ entry.2.required then
    .error (.about "Missing value for `" entry.1 "`")
  else .ok (filled ret entry)

/-- What a value becomes after all arguments. -/
def settled (o : ArgOption α) (value : JsValue α) : JsValue α := if o.type.isMultiple then settle o value else value

theorem settleEntry_ok {ret next : ArgResult α} {entry : Text × ArgOption α}
    (step : settleEntry ret entry = .ok next) :
    (∀ other, other ≠ entry.1 → next other = ret other) ∧
      ∀ value, ret entry.1 = some value → next entry.1 = some (settled entry.2 value) := by
  have next_eq : next = filled ret entry := by
    rw [settleEntry] at step
    split at step
    · cases step
    · cases step
      rfl
  rw [next_eq]
  cases present : ret entry.1 with
  | none =>
    refine ⟨fun other different => ?_, fun value some => (nomatch some)⟩
    cases default : entry.2.default with
    | none => rw [filled, present, default]
    | some value =>
      rw [filled, present, default]
      dsimp only
      by_cases own : inherited.contains entry.1
      · rw [if_pos own]
      · rw [if_neg own]
        exact Function.update_of_ne different _ _
  | some given =>
    rw [filled, present]
    dsimp only
    by_cases multiple : entry.2.type.isMultiple
    · rw [if_pos multiple]
      refine ⟨fun other different => Function.update_of_ne different _ _, fun value same => ?_⟩
      cases same
      rw [settled, if_pos multiple]
      exact Function.update_self ..
    · rw [if_neg multiple]
      refine ⟨fun _ _ => rfl, fun value same => ?_⟩
      cases same
      rw [settled, if_neg multiple, present]

/-- Every option of the table is settled once. -/
theorem settle_entries {entries : List (Text × ArgOption α)} (distinct : (entries.map Prod.fst).Nodup)
    {ret last : ArgResult α} (done : entries.foldlM settleEntry ret = .ok last) (key : Text) :
    (key ∉ entries.map Prod.fst → last key = ret key) ∧
      ∀ o value, (key, o) ∈ entries → ret key = some value → last key = some (settled o value) := by
  induction entries generalizing ret with
  | nil =>
    cases done
    exact ⟨fun _ => rfl, fun _ _ member => (nomatch member)⟩
  | cons entry entries ih =>
    rw [List.map_cons, List.nodup_cons] at distinct
    rw [List.foldlM_cons, bind_eq_ok] at done
    obtain ⟨next, step, done⟩ := done
    obtain ⟨others, value_settled⟩ := settleEntry_ok step
    obtain ⟨kept, values⟩ := ih distinct.2 done
    constructor
    · intro outside
      rw [List.map_cons, List.mem_cons, not_or] at outside
      rw [kept outside.2, others key outside.1]
    · intro o value member present
      obtain rfl | inside := List.mem_cons.mp member
      · rw [kept distinct.1]
        exact value_settled value present
      · have different : key ≠ entry.1 := by
          intro same
          exact distinct.1 (List.mem_map.mpr ⟨_, inside, same⟩)
        exact values o value inside ((others key different).trans present)

/-- What the parser of arguments returns for options that are given once each. -/
theorem parseArgv_given {given : List (Text × Text)} {last : ArgResult α} (plain : ∀ entry ∈ given, '=' ∉ entry.1)
    (distinct : (given.map fun entry => runtime.toLowerCase entry.1).Nodup)
    (own : ∀ entry ∈ given, inherited.contains (runtime.toLowerCase entry.1) = false)
    (parsed : parseArgv runtime opts (given.map spelled) = .ok last) : ∀ entry ∈ given,
      ∃ o value, opts.get (runtime.toLowerCase entry.1) = some o ∧
        (argumentValue runtime (runtime.toLowerCase entry.1) o entry.2).bind o.apply = .ok value ∧
          last (runtime.toLowerCase entry.1) = some (settled o value) := by
  intro entry member
  rw [parseArgv] at parsed
  obtain ⟨state, read, parsed⟩ := bind_eq_ok.mp parsed
  obtain ⟨ret, applied, done⟩ := bind_eq_ok.mp parsed
  obtain ⟨once, -, stands⟩ := readArgs_given plain distinct own (fun _ _ => ⟨rfl, List.not_mem_nil⟩) List.nodup_nil
    read
  obtain ⟨o, found, value, set, made⟩ := stands entry member
  obtain ⟨kept, changed⟩ := applyFns_ok once applied (runtime.toLowerCase entry.1)
  have result : ∃ result, (argumentValue runtime (runtime.toLowerCase entry.1) o entry.2).bind o.apply = .ok result ∧
      ret (runtime.toLowerCase entry.1) = some result := by
    by_cases pending : runtime.toLowerCase entry.1 ∈ state.applyFn
    · simp only [if_pos pending] at made
      obtain ⟨result, function, after⟩ := changed o value pending found set
      obtain ⟨_, first, same⟩ := bind_eq_ok.mp made
      cases same
      exact ⟨result, bind_eq_ok.mpr ⟨value, first, function⟩, after⟩
    · simp only [if_neg pending] at made
      exact ⟨value, made, (kept pending).trans set⟩
  obtain ⟨result, function, after⟩ := result
  have settles := (settle_entries opts.nodup done (runtime.toLowerCase entry.1)).2 o result
    (mem_of_get (own entry member) found) after
  exact ⟨o, result, found, function, settles⟩

/-- What the parser of objects returns for them. -/
theorem parseObject_given {given : List (Text × Text)} {config : List (Text × JsValue α)} {last : ArgResult α}
    (same : config.Perm (given.map fun entry => (entry.1, JsValue.string entry.2)))
    (known : ∀ entry ∈ given, (opts.get (runtime.toLowerCase entry.1)).isSome)
    (parsed : parseObject runtime opts config = .ok last) :
    (given.map fun entry => runtime.toLowerCase entry.1).Nodup ∧
      (∀ entry ∈ given, inherited.contains (runtime.toLowerCase entry.1) = false) ∧
      ∀ entry ∈ given, ∀ o, opts.get (runtime.toLowerCase entry.1) = some o → ∃ value,
        objectValue runtime (runtime.toLowerCase entry.1) o (.string entry.2) = .ok value ∧
          last (runtime.toLowerCase entry.1) = some value := by
  let plain : Text × JsValue α → Text × Text := fun property => (property.1, runtime.toText property.2)
  have ordered : (config.map plain).Perm given := by
    have back : (given.map fun entry => (entry.1, JsValue.string entry.2)).map plain = given := by
      rw [List.map_map]
      exact List.map_id given
    rw [← back]
    exact same.map plain
  have config_eq : config = (config.map plain).map fun entry => (entry.1, JsValue.string entry.2) := by
    rw [List.map_map]
    refine (List.map_id config).symm.trans (List.map_congr_left fun property inside => ?_)
    obtain ⟨entry, _, rfl⟩ := List.mem_map.mp (same.mem_iff.mp inside)
    rfl
  rw [parseObject, config_eq] at parsed
  cases read : ((config.map plain).map fun entry => (entry.1, JsValue.string entry.2)).foldlM
      (readProperty runtime opts) fun _ => none with
  | error error =>
    rw [read] at parsed
    cases parsed
  | ok ret =>
    rw [read] at parsed
    cases parsed
    obtain ⟨distinct, absent, -, values⟩ :=
      readProperties (fun entry member => known entry (ordered.mem_iff.mp member)) read
    refine ⟨(ordered.map _).nodup_iff.mp distinct, fun entry member => ?_, fun entry member o found => ?_⟩
    · exact absent entry (ordered.mem_iff.mpr member)
    · obtain ⟨value, made, set⟩ := values entry (ordered.mem_iff.mpr member) o found
      exact ⟨value, made, defaults_kept _ _ set⟩

/-! ## Both values -/

/-- Whether 32 bits hold a number, as far as the function of the option can tell. -/
def SameNumber (o : ArgOption α) (number : Number) : Prop :=
  (∃ value : ℤ, number = .finite value ∧ 0 ≤ value ∧ value < 2 ^ 31) ∨
    ∃ fn, o.fn = some fn ∧ fn (.number number) = fn (.number (.finite number.toInt32))

/-- Sizes and times that 32 bits hold, and several values of which the function of the option makes nothing falsy. -/
def SameValue (runtime : JsRuntime α) (key : Text) (o : ArgOption α) (s : Text) : Prop :=
  match o.type with
  | .size | .size0 => ∀ number, parseSizeText runtime s = some number → SameNumber o number
  | .time => ∀ number, parseTimeText runtime s = some number → SameNumber o number
  | .list | .array | .map | .map2 => ∀ items value, addValue runtime key o s o.blank = .ok items →
      o.apply items = .ok value → value.truthy ∨ value = .null ∧ o.ifSetDefault = some .null
  | _ => True

theorem sameNumber_iff {o : ArgOption α} {number : Number} {first second : JsValue α} (nonneg : 0 ≤ number.toInt32)
    (whole : o.apply (.number number) = .ok first)
    (short : o.apply (.number (.finite number.toInt32)) = .ok second) : first = second ↔ SameNumber o number := by
  rw [ArgOption.apply] at whole short
  rw [SameNumber, ← Number.toInt32_eq_iff nonneg]
  cases function : o.fn with
  | none =>
    rw [function] at whole short
    cases whole
    cases short
    constructor
    · intro same
      injection same with same
      exact .inl same.symm
    · rintro (same | ⟨fn, none, _⟩)
      · rw [same]
      · cases none
  | some fn =>
    rw [function] at whole short
    dsimp only at whole short
    constructor
    · rintro rfl
      exact .inr ⟨fn, rfl, whole.trans short.symm⟩
    · rintro (same | ⟨_, same, equal⟩)
      · rw [same, whole] at short
        cases short
        rfl
      · cases same
        rw [whole, short] at equal
        cases equal
        rfl

theorem settle_eq_iff (o : ArgOption α) (value : JsValue α) :
    settle o value = value ↔ value.truthy ∨ value = .null ∧ o.ifSetDefault = some .null := by
  unfold settle
  by_cases truthy : value.truthy
  · rw [if_pos truthy]
    exact iff_of_true rfl (.inl truthy)
  · rw [if_neg truthy, or_iff_right truthy]
    have blank : (o.blank : JsValue α).truthy := by
      rw [ArgOption.blank]
      cases o.type <;> rfl
    have other : o.blank ≠ value := fun same => truthy (same ▸ blank)
    cases value with
    | null =>
      dsimp only
      rw [eq_self_iff_true, true_and]
      cases o.ifSetDefault with
      | none => exact iff_of_false (fun same => (nomatch same)) (fun same => (nomatch same))
      | some default => rw [Option.getD_some, Option.some_inj]
    | _ => exact iff_of_false other (fun both => (nomatch both.1))

theorem checkNumber_ok {key : Text} {o : ArgOption α} {v result : JsValue α}
    (checked : checkNumber key o v = .ok result) : ∃ number, v = .number number ∧
      result = .number (.finite number.toInt32) ∧ (o.type = .negInt ∨ 0 ≤ number.toInt32) := by
  cases v with
  | number number =>
    rw [checkNumber] at checked
    split at checked
    · next small =>
      cases checked
      exact ⟨number, rfl, rfl, small⟩
    · cases checked
  | _ => cases checked

/-- The words that both parsers take for a switch. -/
theorem bool_same {key s : Text} {o : ArgOption α} (type : o.type = .bool) {first v second : JsValue α}
    (made : argumentValue runtime key o s = .ok first) (converted : preConvert runtime key o (.string s) = .ok v)
    (checked : checkValue runtime key o v = .ok second) : first = second := by
  rw [argumentValue, if_pos type, boolValue] at made
  simp only [preConvert, type] at converted
  unfold checkValue at checked
  rw [type] at checked
  by_cases yes : runtime.toLowerCase s = "true".toList
  · rw [if_pos yes] at made
    rw [if_pos (.inl yes)] at converted
    cases made
    cases converted
    cases checked
    rfl
  · rw [if_neg yes] at made
    by_cases no : runtime.toLowerCase s = "false".toList ∨ runtime.toLowerCase s = "0".toList
    · have neither : ¬ (runtime.toLowerCase s = "true".toList ∨ runtime.toLowerCase s = "1".toList) := by
        rintro (same | same)
        · exact yes same
        · rw [same] at no
          exact absurd no (by decide)
      rw [if_pos no] at made
      rw [if_neg neither, if_pos (by rw [← or_assoc]; exact .inl no)] at converted
      cases made
      cases converted
      cases checked
      rfl
    · rw [if_neg no] at made
      cases made

theorem signed_of_isDigits {s : Text} (digits : isDigits s) : signed s = some (natural s : ℤ) := by
  unfold signed
  split
  · cases digits
  · rw [if_pos digits]

/-- Integers, with a sign or without. -/
theorem int_same {key s : Text} {o : ArgOption α} (type : o.type = .int ∨ o.type = .negInt)
    {first v second : JsValue α} (made : argumentValue runtime key o s = .ok first)
    (converted : preConvert runtime key o (.string s) = .ok v) (checked : checkValue runtime key o v = .ok second) :
    first = second := by
  obtain ⟨value, integer, rfl⟩ : ∃ value : ℤ, signed s = some value ∧
      first = .number (.finite (Number.ofRat value).toInt32) := by
    rw [argumentValue] at made
    unfold singleValue at made
    rcases type with type | type
    · rw [type, if_neg (by decide), if_neg (by decide)] at made
      dsimp only at made
      split at made
      · next valid =>
        cases made
        exact ⟨natural s, signed_of_isDigits valid.1, rfl⟩
      · cases made
    · rw [type, if_neg (by decide), if_neg (by decide)] at made
      dsimp only at made
      cases integer : signed s with
      | none =>
        rw [integer] at made
        cases made
      | some value =>
        rw [integer] at made
        cases made
        exact ⟨value, rfl, rfl⟩
  have same : v = .number (.finite (Number.ofRat value).toInt32) ∧ checkNumber key o v = .ok second := by
    unfold checkValue at checked
    rcases type with type | type
    · simp only [preConvert, type, integer] at converted
      rw [type] at checked
      cases converted
      exact ⟨rfl, checked⟩
    · simp only [preConvert, type, integer] at converted
      rw [type] at checked
      cases converted
      exact ⟨rfl, checked⟩
  obtain ⟨number, given, rfl, _⟩ := checkNumber_ok same.2
  rw [same.1] at given
  cases given
  rw [Number.toInt32_cast]

/-- Strings that are kept -/
theorem text_same {key s : Text} {o : ArgOption α} (type : o.type = .enum ∨ o.type = .string)
    {first v second : JsValue α} (made : argumentValue runtime key o s = .ok first)
    (converted : preConvert runtime key o (.string s) = .ok v) (checked : checkValue runtime key o v = .ok second) :
    first = second := by
  rw [argumentValue] at made
  unfold singleValue at made
  unfold checkValue at checked
  rcases type with type | type
  · simp only [preConvert, type] at converted
    cases converted
    rw [type, if_neg (by decide), if_neg (by decide)] at made
    rw [type] at checked
    dsimp only at made checked
    split at made
    · next listed =>
      rw [if_pos listed] at checked
      exact Except.ok.inj (made.symm.trans checked)
    · cases made
  · simp only [preConvert, type] at converted
    cases converted
    rw [type, if_neg (by decide), if_neg (by decide)] at made
    rw [type] at checked
    exact Except.ok.inj (made.symm.trans checked)

theorem listValue_string (runtime : JsRuntime α) (s : Text) :
    listValue runtime [.string s] = .ok (listItems runtime s) := by
  have split := congrArg (List.map (JsValue.string (α := α))) (runtime.split_lower s)
  rw [List.map_map, List.map_map] at split
  exact congrArg Except.ok split.symm

theorem mapValue_string (key : Text) (o : ArgOption α) (s : Text) :
    mapValue key o [.string s] = addEntry key o [] s := by
  rw [mapValue, List.foldlM_cons]
  dsimp only
  cases addEntry key o [] s <;> rfl

/-- Several values in one string -/
theorem multiple_same {key s : Text} {o : ArgOption α} (multiple : o.type.isMultiple) {first v second : JsValue α}
    (made : argumentValue runtime key o s = .ok first) (converted : preConvert runtime key o (.string s) = .ok v)
    (checked : checkValue runtime key o v = .ok second) : first = second := by
  have noSwitch : o.type ≠ .bool := by
    intro switch
    rw [switch] at multiple
    cases multiple
  rw [argumentValue, if_neg noSwitch, if_pos multiple] at made
  have items : v = .array [.string s] := by
    cases type : o.type with
    | list | array | map | map2 =>
      simp only [preConvert, type] at converted
      exact (Except.ok.inj converted).symm
    | _ =>
      rw [type] at multiple
      cases multiple
  subst items
  unfold addValue ArgOption.blank at made
  unfold checkValue at checked
  cases type : o.type with
  | list =>
    rw [type] at made checked
    dsimp only at made checked
    rw [listValue_string] at checked
    exact Except.ok.inj (made.symm.trans checked)
  | array =>
    rw [type] at made checked
    exact Except.ok.inj (made.symm.trans checked)
  | map =>
    rw [type] at made checked
    dsimp only at made checked
    rw [mapValue_string] at checked
    exact Except.ok.inj (made.symm.trans checked)
  | map2 =>
    rw [type] at made checked
    dsimp only at made checked
    rw [mapValue_string] at checked
    exact Except.ok.inj (made.symm.trans checked)
  | _ =>
    rw [type] at multiple
    cases multiple

theorem parseSize_string (runtime : JsRuntime α) (s : Text) :
    parseSize runtime (.string s) = parseSizeText runtime s := rfl

theorem parseTime_string (runtime : JsRuntime α) (s : Text) :
    parseTime runtime (.string s) = parseTimeText runtime s := rfl

/-- Sizes and times, which the object has 32 bits of. -/
theorem number_short {key s : Text} {o : ArgOption α} (type : o.type = .size ∨ o.type = .size0 ∨ o.type = .time)
    {first v second : JsValue α} (made : argumentValue runtime key o s = .ok first)
    (converted : preConvert runtime key o (.string s) = .ok v) (checked : checkValue runtime key o v = .ok second) :
    ∃ number, (if o.type = .time then parseTimeText runtime s else parseSizeText runtime s) = some number ∧
      first = .number number ∧ second = .number (.finite number.toInt32) ∧ 0 ≤ number.toInt32 := by
  rw [argumentValue] at made
  unfold singleValue at made
  obtain ⟨number, parsed, whole, given⟩ : ∃ number,
      (if o.type = .time then parseTimeText runtime s else parseSizeText runtime s) = some number ∧
        first = .number number ∧ v = .number number := by
    rcases type with type | type | type
    · rw [type, if_neg (by decide), if_neg (by decide)] at made
      rw [type, if_neg (by decide)]
      simp only [preConvert, type] at converted
      dsimp only at made
      rw [parseSize_string] at made converted
      cases parsed : parseSizeText runtime s with
      | none =>
        rw [parsed] at made
        cases made
      | some number =>
        rw [parsed] at made converted
        cases converted
        dsimp only at made
        split at made
        · cases made
          exact ⟨number, rfl, rfl, rfl⟩
        · cases made
    · rw [type, if_neg (by decide), if_neg (by decide)] at made
      rw [type, if_neg (by decide)]
      simp only [preConvert, type] at converted
      dsimp only at made
      rw [parseSize_string] at made converted
      cases parsed : parseSizeText runtime s with
      | none =>
        rw [parsed] at made
        cases made
      | some number =>
        rw [parsed] at made converted
        cases converted
        cases made
        exact ⟨number, rfl, rfl, rfl⟩
    · rw [type, if_neg (by decide), if_neg (by decide)] at made
      rw [type, if_pos rfl]
      simp only [preConvert, type] at converted
      dsimp only at made
      rw [parseTime_string] at made converted
      cases parsed : parseTimeText runtime s with
      | none =>
        rw [parsed] at made
        cases made
      | some number =>
        rw [parsed] at made converted
        cases converted
        cases made
        exact ⟨number, rfl, rfl, rfl⟩
  subst whole given
  have short : checkNumber key o (.number number) = .ok second := by
    unfold checkValue at checked
    rcases type with type | type | type
    · rw [type] at checked
      dsimp only at checked
      split at checked
      · cases checked
      · exact checked
    · rw [type] at checked
      exact checked
    · rw [type] at checked
      exact checked
  obtain ⟨_, same, rfl, nonneg⟩ := checkNumber_ok short
  cases same
  refine ⟨number, parsed, rfl, rfl, nonneg.resolve_left fun other => ?_⟩
  rw [other] at type
  exact absurd type (by decide)

/-- What is returned of an option is the same if its value is one that both parsers treat alike. -/
theorem settled_eq_iff {key s : Text} {o : ArgOption α} {first second : JsValue α}
    (argument : (argumentValue runtime key o s).bind o.apply = .ok first)
    (property : objectValue runtime key o (.string s) = .ok second) :
    settled o first = second ↔ SameValue runtime key o s := by
  obtain ⟨plain, made, whole⟩ := bind_eq_ok.mp argument
  rw [objectValue] at property
  obtain ⟨v, converted, property⟩ := bind_eq_ok.mp property
  obtain ⟨plain', checked, short⟩ := bind_eq_ok.mp property
  -- what is not changed before the function is not changed by it
  have unchanged : plain = plain' → first = second := by
    rintro rfl
    exact Except.ok.inj (whole.symm.trans short)
  unfold SameValue
  cases type : o.type with
  | bool | int | negInt | enum | string =>
    dsimp only
    rw [settled, type, if_neg (by decide), iff_true]
    refine unchanged ?_
    first
    | exact bool_same type made converted checked
    | exact int_same (.inl type) made converted checked
    | exact int_same (.inr type) made converted checked
    | exact text_same (.inl type) made converted checked
    | exact text_same (.inr type) made converted checked
  | list | array | map | map2 =>
    have multiple : o.type.isMultiple := by
      rw [type]
      rfl
    have same := multiple_same multiple made converted checked
    rw [← unchanged same, settled, if_pos multiple, settle_eq_iff]
    have base : argumentValue runtime key o s = addValue runtime key o s o.blank := by
      rw [argumentValue, if_neg (by rw [type]; decide), if_pos multiple]
    rw [base] at made
    constructor
    · intro kept items value added applied
      rw [made] at added
      cases added
      rw [whole] at applied
      cases applied
      exact kept
    · intro all
      exact all plain first made whole
  | size | size0 | time =>
    have number : o.type = .size ∨ o.type = .size0 ∨ o.type = .time := by
      rw [type]
      decide
    obtain ⟨number, parsed, rfl, rfl, nonneg⟩ := number_short number made converted checked
    rw [type] at parsed
    rw [settled, type, if_neg (by decide), sameNumber_iff nonneg whole short]
    constructor
    · intro same other otherParsed
      have equal := parsed.symm.trans otherParsed
      cases equal
      exact same
    · intro all
      exact all number parsed

/-- Of options that are given once each, both parsers return the same values if and only if every one is treated
alike: 32 bits hold the sizes and times, and the functions of the table make nothing falsy of several values. -/
theorem parsers_agree_iff (runtime : JsRuntime α) (opts : ArgTable α) (given : List (Text × Text))
    (config : List (Text × JsValue α)) (arguments object : ArgResult α) (plain : ∀ entry ∈ given, '=' ∉ entry.1)
    (same : config.Perm (given.map fun entry => (entry.1, JsValue.string entry.2)))
    (argv : parseArgv runtime opts (given.map spelled) = .ok arguments)
    (parsed : parseObject runtime opts config = .ok object) :
    (∀ entry ∈ given, arguments (runtime.toLowerCase entry.1) = object (runtime.toLowerCase entry.1)) ↔
      ∀ entry ∈ given, ∀ o, opts.get (runtime.toLowerCase entry.1) = some o →
        SameValue runtime (runtime.toLowerCase entry.1) o entry.2 := by
  have known : ∀ entry ∈ given, (opts.get (runtime.toLowerCase entry.1)).isSome := by
    rw [parseArgv] at argv
    obtain ⟨state, read, _⟩ := bind_eq_ok.mp argv
    exact readArgs_known plain read
  obtain ⟨distinct, own, properties⟩ := parseObject_given same known parsed
  have values := parseArgv_given plain distinct own argv
  refine forall₂_congr fun entry member => ?_
  obtain ⟨o, value, found, made, set⟩ := values entry member
  obtain ⟨value', property, set'⟩ := properties entry member o found
  rw [set, set', Option.some_inj, settled_eq_iff made property]
  constructor
  · intro alike other otherFound
    rw [found] at otherFound
    cases otherFound
    exact alike
  · intro all
    exact all o found

/-! ## A size of 2^32 -/

/-- Strings without conversions of other values to text -/
def plainRuntime : JsRuntime Empty := { asciiCase with textOf := fun _ => [] }

/-- A table of one size -/
def sizeTable : ArgTable Empty where
  entries := [("n".toList, ⟨.size0, [], [], none, none, false, none⟩)]
  nodup := List.nodup_singleton _
  positional_type o member := by
    rw [List.mem_singleton] at member
    have name : positional = "n".toList := congrArg Prod.fst member
    exact absurd name (by decide)

/-- The number of an option in what a parser has returned -/
def numberOf (result : Except ArgError (ArgResult Empty)) (key : Text) : Option Number :=
  match result with
  | .ok ret =>
    match ret key with
    | some (.number number) => some number
    | _ => none
  | .error _ => none

theorem numberOf_some {result : Except ArgError (ArgResult Empty)} {key : Text} {number : Number}
    (found : numberOf result key = some number) : ∃ ret, result = .ok ret ∧ ret key = some (.number number) := by
  cases result with
  | error error => cases found
  | ok ret =>
    refine ⟨ret, rfl, ?_⟩
    unfold numberOf at found
    dsimp only at found
    cases present : ret key with
    | none =>
      rw [present] at found
      cases found
    | some value =>
      rw [present] at found
      cases value with
      | number value =>
        cases found
        rfl
      | _ => cases found

/-- The object has nothing left of 2^32. -/
theorem large_size_differs : ∃ arguments object,
    parseArgv plainRuntime sizeTable ["--n=4294967296".toList] = .ok arguments ∧
      parseObject plainRuntime sizeTable [("n".toList, .string "4294967296".toList)] = .ok object ∧
        arguments "n".toList = some (.number (.finite 4294967296)) ∧ object "n".toList = some (.number (.finite 0)) ∧
          arguments "n".toList ≠ object "n".toList := by
  have whole : numberOf (parseArgv plainRuntime sizeTable ["--n=4294967296".toList]) "n".toList =
      some (.finite 4294967296) := by decide +kernel
  have short : numberOf (parseObject plainRuntime sizeTable [("n".toList, .string "4294967296".toList)])
      "n".toList = some (.finite 0) := by decide +kernel
  obtain ⟨arguments, parsed, found⟩ := numberOf_some whole
  obtain ⟨object, parsedToo, foundToo⟩ := numberOf_some short
  refine ⟨arguments, object, parsed, parsedToo, found, foundToo, ?_⟩
  rw [found, foundToo]
  intro same
  injection same with same
  injection same with same
  injection same with same
  exact absurd same (by norm_num)

/-- A size that both parsers return -/
theorem small_size_same : ∃ arguments object,
    parseArgv plainRuntime sizeTable ["--n=16".toList] = .ok arguments ∧
      parseObject plainRuntime sizeTable [("n".toList, .string "16".toList)] = .ok object ∧
        arguments "n".toList = object "n".toList := by
  have whole : numberOf (parseArgv plainRuntime sizeTable ["--n=16".toList]) "n".toList = some (.finite 16) := by
    decide +kernel
  have short : numberOf (parseObject plainRuntime sizeTable [("n".toList, .string "16".toList)]) "n".toList =
      some (.finite 16) := by decide +kernel
  obtain ⟨arguments, parsed, _⟩ := numberOf_some whole
  obtain ⟨object, parsedToo, _⟩ := numberOf_some short
  refine ⟨arguments, object, parsed, parsedToo, ?_⟩
  refine (parsers_agree_iff plainRuntime sizeTable [("n".toList, "16".toList)] _ arguments object ?_ (.refl _)
    parsed parsedToo).mpr ?_ _ List.mem_cons_self
  · intro entry member
    rw [List.mem_singleton.mp member]
    decide
  · intro entry member o found
    rw [List.mem_singleton.mp member] at found ⊢
    have size : sizeTable.get "n".toList = some ⟨.size0, [], [], none, none, false, none⟩ := rfl
    have same := size.symm.trans found
    cases same
    intro number text
    have sixteen : parseSizeText plainRuntime "16".toList = some (.finite 16) := by decide +kernel
    have equal := sixteen.symm.trans text
    cases equal
    exact .inl ⟨16, rfl, by decide, by decide⟩

end Par3
