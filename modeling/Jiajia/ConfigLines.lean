import Jiajia.Setting
import Jiajia.Lib.Keyed

/-!
# The lines of `.jiaconf`

`get_options` with all the settings it makes.  A file is a list of comments, blank lines
and `key = value` lines; what it asks for is the last value of every key.  The loop over
the options shortens itself at each unknown key, and it reads the prefetch switch where
`prefetch_pages` stands.
-/

namespace Jiajia.Setting

open Keyed

/-! ## The settings -/

inductive SystemMode
  | memory
  | compute
  | hybrid
deriving DecidableEq, Repr

inductive CommType
  | tcp
  | udp
  | rdma
deriving DecidableEq, Repr

/-- The part of `setting_t` that `get_options` fills in. -/
structure JiaSetting where
  systemMode : SystemMode
  commType : CommType
  globalStartAddr : BitVec 64
  options : Options
deriving DecidableEq

def jiaSetting : JiaSetting where
  systemMode := .memory
  commType := .udp
  globalStartAddr := 0
  options := systemSetting

/-- The value of a digit in bases up to 36. -/
def digitValue (c : Char) : Nat :=
  if c.isDigit then c.toNat - '0'.toNat
  else if 'a' ≤ c ∧ c ≤ 'z' then c.toNat - 'a'.toNat + 10
  else if 'A' ≤ c ∧ c ≤ 'Z' then c.toNat - 'A'.toNat + 10
  else 36

def digitsIn (base : Nat) (s : List Char) : Nat :=
  (s.takeWhile fun c => digitValue c < base).foldl (fun n c => base * n + digitValue c) 0

/-- The number behind the sign, with the base from its prefix. -/
def unsignedIn : List Char → Nat
  | '0' :: 'x' :: s => digitsIn 16 s
  | '0' :: 'X' :: s => digitsIn 16 s
  | '0' :: s => digitsIn 8 s
  | s => digitsIn 10 s

/-- `strtoull(s, NULL, 0)`: a number that does not fit is clamped, a minus negates. -/
def strtoull (s : List Char) : BitVec 64 :=
  let clamp (n : Nat) (v : BitVec 64) : BitVec 64 := if 2 ^ 64 ≤ n then BitVec.allOnes 64 else v
  match s.dropWhile isspace with
  | '-' :: s => clamp (unsignedIn s) (-BitVec.ofNat 64 (unsignedIn s))
  | '+' :: s => clamp (unsignedIn s) (BitVec.ofNat 64 (unsignedIn s))
  | s => clamp (unsignedIn s) (BitVec.ofNat 64 (unsignedIn s))

def systemModeOf (value : List Char) : Option SystemMode :=
  if value = "memory".toList then some .memory
  else if value = "compute".toList then some .compute
  else if value = "hybrid".toList then some .hybrid
  else none

def commTypeOf (value : List Char) : Option CommType :=
  if value = "tcp".toList then some .tcp
  else if value = "udp".toList then some .udp
  else if value = "rdma".toList then some .rdma
  else none

/-- The branch of the loop for one option; `none` is the last branch. -/
def putOption (s : JiaSetting) (o : ConfigOption) : Option JiaSetting :=
  if o.key = "system_mode".toList then
    some { s with systemMode := (systemModeOf o.value).getD s.systemMode }
  else if o.key = "comm_type".toList then
    some { s with commType := (commTypeOf o.value).getD s.commType }
  else if o.key = "global_start_addr".toList then
    some { s with globalStartAddr := strtoull o.value }
  else (setOption s.options o).map fun options => { s with options := options }

/-- The loop over the options, with `left` turns to go; an unknown key takes one turn away. -/
def putOptions : List ConfigOption → Nat → JiaSetting → JiaSetting
  | [], _, s => s
  | o :: os, left, s =>
      if left = 0 then s
      else
        match putOption s o with
        | some s' => putOptions os (left - 1) s'
        | none => putOptions os (left - 2) s

/-- `get_options(setting)` on the text of `.jiaconf`. -/
def getSetting (file : List Char) : Result JiaSetting := do
  let options ← parseLines (fileLines file []) []
  return putOptions options options.length jiaSetting

theorem putOption_options (s : JiaSetting) (o : ConfigOption) :
    (putOption s o).map JiaSetting.options = setOption s.options o := by
  have hother (h : o.key ∈ otherKeys) : setOption s.options o = some s.options := if_pos h
  unfold putOption
  split_ifs with hmode hcomm haddr
  · rw [hother (by simp [otherKeys, hmode])]
    rfl
  · rw [hother (by simp [otherKeys, hcomm])]
    rfl
  · rw [hother (by simp [otherKeys, haddr])]
    rfl
  · rw [Option.map_map]
    exact Option.map_id'

theorem putOptions_options (os : List ConfigOption) (left : Nat) (s : JiaSetting) :
    (putOptions os left s).options = setOptions os left s.options := by
  induction os generalizing left s with
  | nil => rfl
  | cons o os ih =>
      rw [putOptions, setOptions, ← putOption_options]
      by_cases hleft : left = 0
      · rw [if_pos hleft, if_pos hleft]
      · rw [if_neg hleft, if_neg hleft]
        cases putOption s o with
        | none => exact ih _ _
        | some s' => exact ih _ _

/-- The settings of buffers and prefetching are those of `getOptions`. -/
theorem getSetting_options (file : List Char) :
    (do return (← getSetting file).options) = getOptions file := by
  unfold getSetting getOptions
  cases parseLines (fileLines file []) [] with
  | error stop => rfl
  | ok os => exact congrArg Except.ok (putOptions_options os os.length jiaSetting)

/-! ## The text of a file -/

/-- Key and value of a line before they are trimmed. -/
def splitLine (line : List Char) : Option (List Char × List Char) :=
  if line = [] ∨ line.head? = some '#' then none
  else
    match line.dropWhile (· ≠ '=') with
    | [] => none
    | _ :: value => some (line.takeWhile (· ≠ '='), value)

/-- The option in a line that fits. -/
def optionOf (line : List Char) : Option ConfigOption :=
  (splitLine line).map fun x => ⟨trim x.1, trim x.2⟩

/-- Lines of text with a newline between two of them. -/
def joinLines : List (List Char) → List Char
  | [] => []
  | [line] => line
  | line :: lines => line ++ '\n' :: joinLines lines

/-- A line of text that `fgets` reads at once, with a key and a value that fit their arrays. -/
structure FitsLine (line : List Char) : Prop where
  byte : ∀ c ∈ line, c ≠ '\n' ∧ 0 < c.toNat ∧ c.toNat < 256
  length : line.length + 1 < MAX_LINE_LEN
  option : ∀ key value, splitLine line = some (key, value) →
    key.length < MAX_KEY_LEN ∧ value.length < MAX_VALUE_LEN

/-- A `.jiaconf` within the limits. -/
structure JiaConf where
  lines : List (List Char)
  fits : ∀ line ∈ lines, FitsLine line
  count : (lines.filterMap optionOf).length ≤ MAX_OPTIONS_NUM

namespace JiaConf

def text (f : JiaConf) : List Char := joinLines f.lines

def options (f : JiaConf) : List ConfigOption := f.lines.filterMap optionOf

end JiaConf

theorem parseLine_ok {line : List Char} (h : FitsLine line) :
    parseLine line = .ok (optionOf line) := by
  have hoption := h.option
  unfold parseLine optionOf
  unfold splitLine at hoption ⊢
  by_cases hskip : line = [] ∨ line.head? = some '#'
  · rw [if_pos hskip, if_pos hskip]
    rfl
  · rw [if_neg hskip, if_neg hskip]
    rw [if_neg hskip] at hoption
    cases hdrop : line.dropWhile (· ≠ '=') with
    | nil => rfl
    | cons c value =>
        rw [hdrop] at hoption
        obtain ⟨hkey, hvalue⟩ := hoption _ _ rfl
        have htake : value.take (MAX_VALUE_LEN - 1) = value :=
          List.take_of_length_le (Nat.le_pred_of_lt hvalue)
        simp only [defined, if_pos hkey, htake]
        rfl

theorem parseLines_ok {lines : List (List Char)} (hfits : ∀ line ∈ lines, FitsLine line)
    (options : List ConfigOption)
    (hcount : options.length + (lines.filterMap optionOf).length ≤ MAX_OPTIONS_NUM) :
    parseLines lines options = .ok (options ++ lines.filterMap optionOf) := by
  induction lines generalizing options with
  | nil => simp [parseLines]
  | cons line lines ih =>
      have hline := hfits line List.mem_cons_self
      have hlines : ∀ l ∈ lines, FitsLine l := fun l hl => hfits l (List.mem_cons_of_mem _ hl)
      rw [List.filterMap_cons] at hcount ⊢
      rw [parseLines, parseLine_ok hline]
      cases hopt : optionOf line with
      | none =>
          rw [hopt] at hcount
          exact ih hlines options hcount
      | some o =>
          rw [hopt] at hcount
          simp only [List.length_cons] at hcount
          have hroom : options.length < MAX_OPTIONS_NUM := by omega
          have hrest := ih hlines (options ++ [o]) (by
            rw [List.length_append, List.length_singleton]
            omega)
          simp only [bind, Except.bind, defined, if_pos hroom]
          rw [hrest, List.append_assoc]
          rfl

/-- `fgets` reads a line that fits at once. -/
theorem fileLines_append {line acc : List Char} (rest : List Char)
    (hbyte : ∀ c ∈ line, c ≠ '\n') (hlen : acc.length + line.length + 1 < MAX_LINE_LEN) :
    fileLines (line ++ rest) acc = fileLines rest (acc ++ line) := by
  induction line generalizing acc with
  | nil => simp
  | cons c line ih =>
      have hc := hbyte c List.mem_cons_self
      rw [List.length_cons] at hlen
      rw [List.cons_append, fileLines, if_neg hc, if_neg (by omega),
        ih (fun c' hc' => hbyte c' (List.mem_cons_of_mem _ hc')), List.append_assoc]
      · rfl
      · rw [List.length_append, List.length_singleton]
        omega

/-- The lines `fgets` returns, but for an empty last one. -/
theorem fileLines_joinLines {lines : List (List Char)} (hfits : ∀ line ∈ lines, FitsLine line) :
    (∀ line ∈ fileLines (joinLines lines) [], FitsLine line) ∧
      (fileLines (joinLines lines) []).filterMap optionOf = lines.filterMap optionOf := by
  induction lines with
  | nil => simp [joinLines, fileLines]
  | cons line lines ih =>
      have hline := hfits line List.mem_cons_self
      have hlines : ∀ l ∈ lines, FitsLine l := fun l hl => hfits l (List.mem_cons_of_mem _ hl)
      have hbyte : ∀ c ∈ line, c ≠ '\n' := fun c hc => (hline.byte c hc).1
      have hlen : ([] : List Char).length + line.length + 1 < MAX_LINE_LEN := by
        rw [List.length_nil, Nat.zero_add]
        exact hline.length
      cases lines with
      | nil =>
          have hread := fileLines_append [] hbyte hlen
          rw [List.append_nil, List.nil_append, fileLines] at hread
          rw [joinLines, hread]
          by_cases hempty : line = []
          · subst hempty
            simp [optionOf, splitLine]
          · rw [if_neg hempty]
            exact ⟨by simpa using hline, rfl⟩
      | cons line' lines =>
          obtain ⟨hall, hopts⟩ := ih hlines
          have hread : fileLines (joinLines (line :: line' :: lines)) [] =
              line :: fileLines (joinLines (line' :: lines)) [] := by
            rw [joinLines]
            · rw [fileLines_append _ hbyte hlen, List.nil_append, fileLines, if_pos rfl]
            · simp
          rw [hread, List.filterMap_cons, hopts, List.filterMap_cons]
          refine ⟨?_, rfl⟩
          intro l hl
          rcases List.mem_cons.mp hl with rfl | hl
          · exact hline
          · exact hall l hl

/-- The settings of a file come from its options. -/
theorem getSetting_text (f : JiaConf) :
    getSetting f.text = .ok (putOptions f.options f.options.length jiaSetting) := by
  obtain ⟨hfits, hopts⟩ := fileLines_joinLines f.fits
  have hparse := parseLines_ok hfits [] (by
    rw [hopts, List.length_nil, Nat.zero_add]
    exact f.count)
  rw [hopts, List.nil_append] at hparse
  unfold getSetting JiaConf.text
  rw [hparse]
  rfl

/-! ## What the loop reads -/

def knownKeys : List (List Char) :=
  otherKeys ++ ["msg_buffer_size".toList, "msg_queue_size".toList, "prefetch".toList,
    "prefetch_pages".toList, "max_checking_pages".toList]

def ConfigOption.known (o : ConfigOption) : Bool := knownKeys.contains o.key

theorem mem_knownKeys {key : List Char} : key ∈ knownKeys ↔
    key = "system_mode".toList ∨ key = "comm_type".toList ∨ key = "global_start_addr".toList ∨
    key = "msg_buffer_size".toList ∨ key = "msg_queue_size".toList ∨ key = "prefetch".toList ∨
    key = "prefetch_pages".toList ∨ key = "max_checking_pages".toList := by
  simp only [knownKeys, otherKeys, List.mem_cons, List.not_mem_nil, or_false, List.cons_append,
    List.nil_append]

/-- The settings with the field of one key set. -/
def put (s : JiaSetting) (o : ConfigOption) : JiaSetting where
  systemMode := (if o.key = "system_mode".toList then systemModeOf o.value else none).getD
    s.systemMode
  commType := (if o.key = "comm_type".toList then commTypeOf o.value else none).getD s.commType
  globalStartAddr := (if o.key = "global_start_addr".toList then some (strtoull o.value)
    else none).getD s.globalStartAddr
  options :=
    { msgBufferSize := (if o.key = "msg_buffer_size".toList then some (atoi o.value)
        else none).getD s.options.msgBufferSize
      msgQueueSize := (if o.key = "msg_queue_size".toList then some (atoi o.value)
        else none).getD s.options.msgQueueSize
      prefetchFlag := (if o.key = "prefetch".toList then some (decide (o.value = "on".toList))
        else none).getD s.options.prefetchFlag
      prefetchPages :=
        if o.key = "prefetch_pages".toList then
          if s.options.prefetchFlag then (atoi o.value).tmod 9 else 0
        else s.options.prefetchPages
      maxCheckingPages := (if o.key = "max_checking_pages".toList then
        some (min (atoi o.value) (Maxsize / Pagesize : Nat)) else none).getD
          s.options.maxCheckingPages }

theorem putOption_known (s : JiaSetting) {o : ConfigOption} (h : o.key ∈ knownKeys) :
    putOption s o = some (put s o) := by
  obtain ⟨key, value⟩ := o
  rcases mem_knownKeys.mp h with rfl | rfl | rfl | rfl | rfl | rfl | rfl | rfl
  · rfl
  · rfl
  · rfl
  · rfl
  · rfl
  · rfl
  · have hset : putOption s ⟨"prefetch_pages".toList, value⟩ =
        (if s.options.prefetchFlag then some { s.options with prefetchPages := (atoi value).tmod 9 }
        else some { s.options with prefetchPages := 0 }).map
          fun options => { s with options := options } := rfl
    have hput : put s ⟨"prefetch_pages".toList, value⟩ = { s with options := { s.options with
        prefetchPages := if s.options.prefetchFlag then (atoi value).tmod 9 else 0 } } := rfl
    rw [hset, hput]
    cases s.options.prefetchFlag with
    | true => rfl
    | false => rfl
  · rfl

theorem putOption_unknown (s : JiaSetting) {o : ConfigOption} (h : o.key ∉ knownKeys) :
    putOption s o = none := by
  simp only [mem_knownKeys, not_or] at h
  obtain ⟨hmode, hcomm, haddr, hbuffer, hqueue, hprefetch, hpages, hchecking⟩ := h
  simp only [putOption, setOption, otherKeys, hmode, hcomm, haddr, hbuffer, hqueue, hprefetch,
    hpages, hchecking, if_false, List.mem_cons, List.not_mem_nil, or_self, Option.map_none]

theorem put_unknown (s : JiaSetting) {o : ConfigOption} (h : o.key ∉ knownKeys) :
    put s o = s := by
  simp only [mem_knownKeys, not_or] at h
  obtain ⟨hmode, hcomm, haddr, hbuffer, hqueue, hprefetch, hpages, hchecking⟩ := h
  simp only [put, hmode, hcomm, haddr, hbuffer, hqueue, hprefetch, hpages, hchecking, if_false]
  rfl

theorem putOption_isSome (s : JiaSetting) (o : ConfigOption) :
    (putOption s o).isSome = o.known := by
  by_cases h : o.key ∈ knownKeys
  · rw [putOption_known s h, ConfigOption.known, List.contains_iff_mem.mpr h]
    rfl
  · rw [putOption_unknown s h, ConfigOption.known, List.contains_eq_mem, decide_eq_false h]
    rfl

/-- The options the loop comes to. -/
def interpreted : List ConfigOption → Nat → List ConfigOption
  | [], _ => []
  | o :: os, left =>
      if left = 0 then [] else o :: interpreted os (if o.known then left - 1 else left - 2)

/-- What one option does to the settings. -/
def apply (s : JiaSetting) (o : ConfigOption) : JiaSetting := (putOption s o).getD s

theorem apply_eq (s : JiaSetting) (o : ConfigOption) : apply s o = put s o := by
  rw [apply]
  by_cases h : o.key ∈ knownKeys
  · rw [putOption_known s h, Option.getD_some]
  · rw [putOption_unknown s h, put_unknown s h, Option.getD_none]

theorem apply_unknown (s : JiaSetting) {o : ConfigOption} (h : o.known = false) :
    apply s o = s := by
  have hnone := putOption_isSome s o
  rw [h, Option.isSome_eq_false_iff, Option.isNone_iff_eq_none] at hnone
  rw [apply, hnone]
  rfl

theorem putOptions_eq (os : List ConfigOption) (left : Nat) (s : JiaSetting) :
    putOptions os left s = (interpreted os left).foldl apply s := by
  induction os generalizing left s with
  | nil => rfl
  | cons o os ih =>
      rw [putOptions, interpreted]
      by_cases hleft : left = 0
      · rw [if_pos hleft, if_pos hleft]
        rfl
      · have hknown := putOption_isSome s o
        rw [if_neg hleft, if_neg hleft, List.foldl_cons, apply]
        cases hput : putOption s o with
        | none =>
            rw [hput, Option.isSome_none] at hknown
            rw [← hknown, if_neg Bool.false_ne_true]
            exact ih _ _
        | some s' =>
            rw [hput, Option.isSome_some] at hknown
            rw [← hknown, if_pos rfl]
            exact ih _ _

theorem foldl_apply_known (os : List ConfigOption) (s : JiaSetting) :
    os.foldl apply s = (os.filter ConfigOption.known).foldl apply s := by
  induction os generalizing s with
  | nil => rfl
  | cons o os ih =>
      rw [List.foldl_cons]
      cases hknown : o.known with
      | true => rw [List.filter_cons_of_pos hknown, List.foldl_cons, ih]
      | false =>
          rw [List.filter_cons_of_neg (by simp [hknown]), apply_unknown s hknown, ih]

/-- Every known line stands before the end that the unknown lines in front of it leave. -/
def Reached (os : List ConfigOption) (left : Nat) : Prop :=
  ∀ i o, os[i]? = some o → o.known = true →
    i + (os.take i).countP (fun o => !o.known) < left

theorem reached_cons {o : ConfigOption} {os : List ConfigOption} {left : Nat} :
    Reached (o :: os) (left + 1) ↔ Reached os (if o.known then left else left - 1) := by
  constructor
  · intro h i o' ho' hknown
    have hlt := h (i + 1) o' ho' hknown
    rw [List.take_succ_cons, List.countP_cons] at hlt
    cases ho : o.known with
    | true =>
        simp only [ho, Bool.not_true, Bool.false_eq_true, if_false] at hlt
        rw [if_pos rfl]
        omega
    | false =>
        simp only [ho, Bool.not_false, if_true] at hlt
        rw [if_neg Bool.false_ne_true]
        omega
  · intro h i o' ho' hknown
    cases i with
    | zero =>
        rw [List.take_zero, List.countP_nil]
        omega
    | succ i =>
        have hlt := h i o' ho' hknown
        rw [List.take_succ_cons, List.countP_cons]
        cases ho : o.known with
        | true =>
            rw [ho, if_pos rfl] at hlt
            simp only [Bool.not_true, Bool.false_eq_true, if_false]
            omega
        | false =>
            rw [ho, if_neg Bool.false_ne_true] at hlt
            simp only [Bool.not_false, if_true]
            omega

/-- The loop comes to all known lines exactly when none of them stands too far back. -/
theorem interpreted_known_iff (os : List ConfigOption) (left : Nat) :
    (interpreted os left).filter ConfigOption.known = os.filter ConfigOption.known ↔
      Reached os left := by
  induction os generalizing left with
  | nil => simp [interpreted, Reached]
  | cons o os ih =>
      cases left with
      | zero =>
          rw [interpreted, if_pos rfl, List.filter_nil]
          constructor
          · intro h i o' ho' hknown
            have hmem : o' ∈ (o :: os).filter ConfigOption.known :=
              List.mem_filter.mpr ⟨List.mem_of_getElem? ho', hknown⟩
            rw [← h] at hmem
            cases hmem
          · intro h
            symm
            rw [List.filter_eq_nil_iff]
            intro o' ho' hknown
            obtain ⟨i, hi⟩ := List.getElem?_of_mem ho'
            exact absurd (h i o' hi hknown) (Nat.not_lt_zero _)
      | succ left =>
          rw [interpreted, if_neg (Nat.succ_ne_zero left), reached_cons]
          cases ho : o.known with
          | true =>
              rw [List.filter_cons_of_pos ho, List.filter_cons_of_pos ho, if_pos rfl, if_pos rfl,
                List.cons_inj_right]
              exact ih left
          | false =>
              have hneg : ¬ o.known = true := by simp [ho]
              rw [List.filter_cons_of_neg hneg, List.filter_cons_of_neg hneg,
                if_neg Bool.false_ne_true, if_neg Bool.false_ne_true]
              exact ih (left - 1)

/-! ## What a file asks for -/

/-- The prefetch switch after some options. -/
def switch (os : List ConfigOption) : Bool :=
  (lastValue ConfigOption.key "prefetch".toList
    (fun o => some (decide (o.value = "on".toList))) os).getD systemSetting.prefetchFlag

/-- The last value of every key; a mode that does not exist is none.  No pages are
prefetched with the switch off. -/
def wanted (os : List ConfigOption) : JiaSetting where
  systemMode := (lastValue ConfigOption.key "system_mode".toList
    (fun o => systemModeOf o.value) os).getD jiaSetting.systemMode
  commType := (lastValue ConfigOption.key "comm_type".toList
    (fun o => commTypeOf o.value) os).getD jiaSetting.commType
  globalStartAddr := (lastValue ConfigOption.key "global_start_addr".toList
    (fun o => some (strtoull o.value)) os).getD jiaSetting.globalStartAddr
  options :=
    { msgBufferSize := (lastValue ConfigOption.key "msg_buffer_size".toList
        (fun o => some (atoi o.value)) os).getD systemSetting.msgBufferSize
      msgQueueSize := (lastValue ConfigOption.key "msg_queue_size".toList
        (fun o => some (atoi o.value)) os).getD systemSetting.msgQueueSize
      prefetchFlag := switch os
      prefetchPages :=
        if switch os then
          (lastValue ConfigOption.key "prefetch_pages".toList
            (fun o => some ((atoi o.value).tmod 9)) os).getD systemSetting.prefetchPages
        else 0
      maxCheckingPages := (lastValue ConfigOption.key "max_checking_pages".toList
        (fun o => some (min (atoi o.value) (Maxsize / Pagesize : Nat))) os).getD
          systemSetting.maxCheckingPages }

/-- What the file asks for depends on the order of the lines of each key only. -/
theorem wanted_reordered {os os' : List ConfigOption} (h : Reordered ConfigOption.key os os') :
    wanted os' = wanted os := by
  have hlast {β : Type} (k : List Char) (read : ConfigOption → Option β) :
      lastValue ConfigOption.key k read os' = lastValue ConfigOption.key k read os :=
    h.lastValue.symm
  have hswitch : switch os' = switch os := by
    rw [switch, hlast]
    rfl
  rw [wanted, hswitch]
  simp only [hlast]
  rfl

section Fields

variable (s : JiaSetting) (o : ConfigOption)

theorem apply_systemMode : (apply s o).systemMode =
    (if o.key = "system_mode".toList then systemModeOf o.value else none).getD s.systemMode := by
  rw [apply_eq]
  rfl

theorem apply_commType : (apply s o).commType =
    (if o.key = "comm_type".toList then commTypeOf o.value else none).getD s.commType := by
  rw [apply_eq]
  rfl

theorem apply_globalStartAddr : (apply s o).globalStartAddr =
    (if o.key = "global_start_addr".toList then some (strtoull o.value) else none).getD
      s.globalStartAddr := by
  rw [apply_eq]
  rfl

theorem apply_msgBufferSize : (apply s o).options.msgBufferSize =
    (if o.key = "msg_buffer_size".toList then some (atoi o.value) else none).getD
      s.options.msgBufferSize := by
  rw [apply_eq]
  rfl

theorem apply_msgQueueSize : (apply s o).options.msgQueueSize =
    (if o.key = "msg_queue_size".toList then some (atoi o.value) else none).getD
      s.options.msgQueueSize := by
  rw [apply_eq]
  rfl

theorem apply_prefetchFlag : (apply s o).options.prefetchFlag =
    (if o.key = "prefetch".toList then some (decide (o.value = "on".toList)) else none).getD
      s.options.prefetchFlag := by
  rw [apply_eq]
  rfl

theorem apply_maxCheckingPages : (apply s o).options.maxCheckingPages =
    (if o.key = "max_checking_pages".toList then
      some (min (atoi o.value) (Maxsize / Pagesize : Nat)) else none).getD
        s.options.maxCheckingPages := by
  rw [apply_eq]
  rfl

/-- The one place that looks at another. -/
theorem apply_prefetchPages : (apply s o).options.prefetchPages =
    if o.key = "prefetch_pages".toList then
      if s.options.prefetchFlag then (atoi o.value).tmod 9 else 0
    else s.options.prefetchPages := by
  rw [apply_eq]
  rfl

end Fields

/-- The last `prefetch_pages` line finds the switch as it is at the end of the file, or it
asks for no page. -/
def SwitchSettled (os : List ConfigOption) : Prop :=
  ∀ before o behind, os = before ++ o :: behind → o.key = "prefetch_pages".toList →
    (∀ o' ∈ behind, o'.key ≠ "prefetch_pages".toList) →
    switch before = switch os ∨ (atoi o.value).tmod 9 = 0

theorem foldl_switch (os : List ConfigOption) :
    (os.foldl apply jiaSetting).options.prefetchFlag = switch os :=
  foldl_lastValue (fun s => s.options.prefetchFlag) apply_prefetchFlag jiaSetting os

theorem foldl_pages_behind {os : List ConfigOption} (s : JiaSetting)
    (h : ∀ o ∈ os, o.key ≠ "prefetch_pages".toList) :
    (os.foldl apply s).options.prefetchPages = s.options.prefetchPages := by
  induction os generalizing s with
  | nil => rfl
  | cons o os ih =>
      rw [List.foldl_cons, ih _ fun o' ho' => h o' (List.mem_cons_of_mem _ ho'),
        apply_prefetchPages, if_neg (h o List.mem_cons_self)]

/-- The pages that the last line about them leaves. -/
theorem foldl_pages (before : List ConfigOption) {behind : List ConfigOption} {o : ConfigOption}
    (ho : o.key = "prefetch_pages".toList)
    (h : ∀ o' ∈ behind, o'.key ≠ "prefetch_pages".toList) :
    ((before ++ o :: behind).foldl apply jiaSetting).options.prefetchPages =
      if switch before then (atoi o.value).tmod 9 else 0 := by
  rw [List.foldl_append, List.foldl_cons, foldl_pages_behind _ h, apply_prefetchPages, if_pos ho,
    foldl_switch]

theorem wanted_pages {before behind : List ConfigOption} {o : ConfigOption}
    (ho : o.key = "prefetch_pages".toList)
    (h : ∀ o' ∈ behind, o'.key ≠ "prefetch_pages".toList) :
    (wanted (before ++ o :: behind)).options.prefetchPages =
      if switch (before ++ o :: behind) then (atoi o.value).tmod 9 else 0 := by
  have hlast : lastValue ConfigOption.key "prefetch_pages".toList
      (fun o => some ((atoi o.value).tmod 9)) (before ++ o :: behind) =
        some ((atoi o.value).tmod 9) := lastValue_split ho h rfl
  simp only [wanted, hlast, Option.getD_some]

/-- Settings with the same pages as the wanted ones are the wanted ones. -/
theorem foldl_eq_wanted {os : List ConfigOption}
    (h : (os.foldl apply jiaSetting).options.prefetchPages = (wanted os).options.prefetchPages) :
    os.foldl apply jiaSetting = wanted os := by
  have hmode := foldl_lastValue JiaSetting.systemMode apply_systemMode jiaSetting os
  have hcomm := foldl_lastValue JiaSetting.commType apply_commType jiaSetting os
  have haddr := foldl_lastValue JiaSetting.globalStartAddr apply_globalStartAddr
    jiaSetting os
  have hbuffer := foldl_lastValue (fun s => s.options.msgBufferSize) apply_msgBufferSize
    jiaSetting os
  have hqueue := foldl_lastValue (fun s => s.options.msgQueueSize) apply_msgQueueSize
    jiaSetting os
  have hchecking := foldl_lastValue (fun s => s.options.maxCheckingPages)
    apply_maxCheckingPages jiaSetting os
  have hflag := foldl_switch os
  generalize os.foldl apply jiaSetting = s at h hmode hcomm haddr hbuffer hqueue hchecking hflag ⊢
  obtain ⟨mode, comm, addr, buffer, queue, flag, pages, checking⟩ := s
  dsimp only at hmode hcomm haddr hbuffer hqueue hchecking hflag
  subst hmode hcomm haddr hbuffer hqueue hchecking hflag
  dsimp only at h
  rw [h]
  rfl

/-- Options that are all read give what the file asks for exactly when the switch is settled. -/
theorem foldl_eq_wanted_iff (os : List ConfigOption) :
    os.foldl apply jiaSetting = wanted os ↔ SwitchSettled os := by
  constructor
  · rintro h before o behind rfl ho hbehind
    have hpages := foldl_pages before ho hbehind
    rw [h, wanted_pages ho hbehind] at hpages
    by_cases hzero : (atoi o.value).tmod 9 = 0
    · exact Or.inr hzero
    · left
      cases hb : switch before with
      | true =>
          cases he : switch (before ++ o :: behind) with
          | true => rfl
          | false =>
              rw [hb, he, if_pos rfl, if_neg Bool.false_ne_true] at hpages
              exact absurd hpages.symm hzero
      | false =>
          cases he : switch (before ++ o :: behind) with
          | true =>
              rw [hb, he, if_pos rfl, if_neg Bool.false_ne_true] at hpages
              exact absurd hpages hzero
          | false => rfl
  · intro h
    apply foldl_eq_wanted
    rcases last_split ConfigOption.key "prefetch_pages".toList os with
      hnone | ⟨before, o, behind, rfl, ho, hbehind⟩
    · simp only [foldl_pages_behind _ hnone, wanted, lastValue_none hnone]
      exact (ite_self _).symm
    · rw [foldl_pages before ho hbehind, wanted_pages ho hbehind]
      rcases h before o behind rfl ho hbehind with hsame | hzero
      · rw [hsame]
      · rw [hzero, ite_self, ite_self]

/-! ## Independence -/

/-- Every known line takes effect, and every key has the value of its last line. -/
def Independent (f : JiaConf) : Prop :=
  ∃ s, getSetting f.text = .ok s ∧
    (interpreted f.options f.options.length).filter ConfigOption.known =
      f.options.filter ConfigOption.known ∧
    s = wanted f.options

/-- No known line stands where the unknown lines before it have cut the loop off, and the
prefetch switch has its last value where `prefetch_pages` is read. -/
def Settled (f : JiaConf) : Prop :=
  Reached f.options f.options.length ∧ SwitchSettled f.options

theorem independent_iff (f : JiaConf) : Independent f ↔ Settled f := by
  unfold Independent Settled
  rw [getSetting_text]
  constructor
  · rintro ⟨s, hs, hread, rfl⟩
    obtain hs := Except.ok.inj hs
    rw [putOptions_eq, foldl_apply_known, hread, ← foldl_apply_known] at hs
    exact ⟨(interpreted_known_iff _ _).mp hread, (foldl_eq_wanted_iff _).mp hs⟩
  · rintro ⟨hreached, hsettled⟩
    have hread := (interpreted_known_iff _ _).mpr hreached
    refine ⟨_, rfl, hread, ?_⟩
    rw [putOptions_eq, foldl_apply_known, hread, ← foldl_apply_known]
    exact (foldl_eq_wanted_iff _).mpr hsettled

/-- The lines of a file are independent exactly when no unknown line cuts a known one off and
`prefetch_pages` finds the last value of its switch; they are so in every order exactly when
this holds in every order, and the settings are then the same in every order. -/
theorem config_lines_independent_iff (f : JiaConf) :
    (Independent f ↔ Settled f) ∧
    ((∀ f' : JiaConf, Reordered ConfigOption.key f.options f'.options →
        Independent f' ∧ getSetting f'.text = getSetting f.text) ↔
      ∀ f' : JiaConf, Reordered ConfigOption.key f.options f'.options → Settled f') := by
  refine ⟨independent_iff f, ?_, ?_⟩
  · intro h f' hf'
    exact (independent_iff f').mp (h f' hf').1
  · intro h f' hf'
    have hself : Reordered ConfigOption.key f.options f.options := ⟨List.Perm.refl _, fun _ => rfl⟩
    have hi := (independent_iff f).mpr (h f hself)
    have hi' := (independent_iff f').mpr (h f' hf')
    refine ⟨hi', ?_⟩
    obtain ⟨s, hs, -, rfl⟩ := hi
    obtain ⟨s', hs', -, rfl⟩ := hi'
    rw [hs, hs', wanted_reordered hf']

/-! ## Two short files -/

theorem FitsLine.of_split {line key value : List Char}
    (hbyte : (line.all fun c => decide (c ≠ '\n' ∧ 0 < c.toNat ∧ c.toNat < 256)) = true)
    (hlen : line.length + 1 < MAX_LINE_LEN) (hsplit : splitLine line = some (key, value))
    (hkey : key.length < MAX_KEY_LEN) (hvalue : value.length < MAX_VALUE_LEN) : FitsLine line where
  byte c hc := of_decide_eq_true (List.all_eq_true.mp hbyte c hc)
  length := hlen
  option key' value' h := by
    obtain ⟨rfl, rfl⟩ := Prod.mk.inj (Option.some.inj (hsplit.symm.trans h))
    exact ⟨hkey, hvalue⟩

def unknownFirstLines : List (List Char) :=
  ["debug_level = 2".toList, "msg_buffer_size = 16".toList]

theorem unknownFirst_fits : ∀ line ∈ unknownFirstLines, FitsLine line := by
  intro line hline
  simp only [unknownFirstLines, List.mem_cons, List.not_mem_nil, or_false] at hline
  rcases hline with rfl | rfl
  · exact .of_split (by decide) (by decide)
      (show _ = some ("debug_level ".toList, " 2".toList) by decide) (by decide) (by decide)
  · exact .of_split (by decide) (by decide)
      (show _ = some ("msg_buffer_size ".toList, " 16".toList) by decide) (by decide) (by decide)

theorem unknownFirst_count :
    (unknownFirstLines.filterMap optionOf).length ≤ MAX_OPTIONS_NUM := by
  decide

/-- An unknown key in front of a known one. -/
def unknownFirst : JiaConf := ⟨unknownFirstLines, unknownFirst_fits, unknownFirst_count⟩

/-- The known line is not read: the buffers keep their default size. -/
theorem unknown_line_drops_known :
    (∃ s, getSetting unknownFirst.text = .ok s ∧ s.options.msgBufferSize = 48 ∧
      (wanted unknownFirst.options).options.msgBufferSize = 16) ∧
    ¬ ∀ f : JiaConf, Independent f := by
  constructor
  · exact ⟨_, getSetting_text unknownFirst, by decide, by decide⟩
  · intro h
    obtain ⟨s, -, hread, -⟩ := h unknownFirst
    exact absurd hread (by decide)

/-- With the switch behind it `prefetch_pages = 4` asks for no page. -/
example : (wanted [⟨"prefetch_pages".toList, "4".toList⟩, ⟨"prefetch".toList, "on".toList⟩]).options
      = { systemSetting with prefetchFlag := true, prefetchPages := 4 } ∧
    (putOptions [⟨"prefetch_pages".toList, "4".toList⟩, ⟨"prefetch".toList, "on".toList⟩] 2
      jiaSetting).options = { systemSetting with prefetchFlag := true } := by
  decide

end Jiajia.Setting
