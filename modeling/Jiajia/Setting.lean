import Jiajia.Global

/-!
# `get_options`

The lines of `.jiaconf` as `fgets` returns them, the options they give, and the settings
the options leave behind.
-/

namespace Jiajia.Setting

abbrev MAX_LINE_LEN : Nat := 256
abbrev MAX_KEY_LEN : Nat := 100
abbrev MAX_VALUE_LEN : Nat := 156
abbrev MAX_OPTIONS_NUM : Nat := 100

/-! ## Text -/

/-- The lines of a file, without their ends; `fgets` cuts a long one. -/
def fileLines : List Char → List Char → List (List Char)
  | [], line => if line = [] then [] else [line]
  | c :: cs, line =>
      if c = '\n' then line :: fileLines cs []
      else if line.length + 2 = MAX_LINE_LEN then (line ++ [c]) :: fileLines cs []
      else fileLines cs (line ++ [c])

def isspace (c : Char) : Bool :=
  c = ' ' || c = '\t' || c = '\n' || c = '\r' || c.toNat = 11 || c.toNat = 12

/-- `trim(str)` -/
def trim (str : List Char) : List Char :=
  ((str.dropWhile isspace).reverse.dropWhile isspace).reverse

/-- The number that the leading digits stand for. -/
def digits (n : Nat) (s : List Char) : Nat :=
  (s.takeWhile Char.isDigit).foldl (fun n c => 10 * n + (c.toNat - '0'.toNat)) n

/-- `strtol(s, NULL, 10)`: a number that does not fit is clamped. -/
def strtol (s : List Char) : Int :=
  let n : Int :=
    match s.dropWhile isspace with
    | '-' :: s => -(digits 0 s : Int)
    | '+' :: s => digits 0 s
    | s => digits 0 s
  max (-2 ^ 63) (min n (2 ^ 63 - 1))

/-- `atoi(s)` is `strtol` cut down to an int. -/
def atoi (s : List Char) : Int := (BitVec.ofInt 32 (strtol s)).toInt

/-! ## Options -/

structure ConfigOption where
  key : List Char
  value : List Char
deriving DecidableEq

/-- The option in a line, if there is one. -/
def parseLine (line : List Char) : Result (Option ConfigOption) :=
  if line = [] ∨ line.head? = some '#' then .ok none
  else
    match line.dropWhile (· ≠ '=') with
    | [] => .ok none
    | _ :: value => do
        let key := line.takeWhile (· ≠ '=')
        defined (key.length < MAX_KEY_LEN) "option.key[]"
        return some ⟨trim key, trim (value.take (MAX_VALUE_LEN - 1))⟩

/-- The loop over the lines. -/
def parseLines : List (List Char) → List ConfigOption → Result (List ConfigOption)
  | [], options => .ok options
  | line :: lines, options => do
      match ← parseLine line with
      | none => parseLines lines options
      | some option => do
          defined (options.length < MAX_OPTIONS_NUM) "setting->options[]"
          parseLines lines (options ++ [option])

/-- The part of `setting_t` that buffers and prefetching use. -/
structure Options where
  msgBufferSize : Int
  msgQueueSize : Int
  prefetchFlag : Bool
  prefetchPages : Int
  maxCheckingPages : Int
deriving DecidableEq

/-- `system_setting` before `.jiaconf` is read. -/
def systemSetting : Options where
  msgBufferSize := 48
  msgQueueSize := 32
  prefetchFlag := false
  prefetchPages := 0
  maxCheckingPages := 0

/-- The keys whose values are kept elsewhere. -/
def otherKeys : List (List Char) :=
  ["system_mode".toList, "comm_type".toList, "global_start_addr".toList]

/-- What one option sets; `none` for an unknown key. -/
def setOption (s : Options) (o : ConfigOption) : Option Options :=
  if o.key ∈ otherKeys then some s
  else if o.key = "msg_buffer_size".toList then some { s with msgBufferSize := atoi o.value }
  else if o.key = "msg_queue_size".toList then some { s with msgQueueSize := atoi o.value }
  else if o.key = "prefetch".toList then
    some { s with prefetchFlag := o.value = "on".toList }
  else if o.key = "prefetch_pages".toList then
    if s.prefetchFlag then some { s with prefetchPages := (atoi o.value).tmod 9 }
    else some { s with prefetchPages := 0 }
  else if o.key = "max_checking_pages".toList then
    some { s with maxCheckingPages := min (atoi o.value) (Maxsize / Pagesize : Nat) }
  else none

/-- The loop over the options, `left` turns from its end; an unknown key takes one more
turn away. -/
def setOptions : List ConfigOption → Nat → Options → Options
  | [], _, s => s
  | o :: os, left, s =>
      if left = 0 then s
      else
        match setOption s o with
        | some s' => setOptions os (left - 1) s'
        | none => setOptions os (left - 2) s

/-- `get_options(setting)` on the text of `.jiaconf`. -/
def getOptions (file : List Char) : Result Options := do
  let options ← parseLines (fileLines file []) []
  return setOptions options options.length systemSetting

/-! ## What is accepted -/

/-- Every file leaves the settings for prefetching in these ranges. -/
structure InRange (s : Options) : Prop where
  pages : -8 ≤ s.prefetchPages ∧ s.prefetchPages ≤ 8
  checking : s.maxCheckingPages ≤ (Maxsize / Pagesize : Nat)

theorem inRange_systemSetting : InRange systemSetting where
  pages := by decide
  checking := by decide

theorem tmod_nine (n : Int) : -8 ≤ n.tmod 9 ∧ n.tmod 9 ≤ 8 := by
  have hlt := Int.tmod_lt_of_pos n (show (0 : Int) < 9 by decide)
  have hgt := Int.lt_tmod_of_pos n (show (0 : Int) < 9 by decide)
  omega

theorem InRange.setOption {s s' : Options} {o : ConfigOption} (hs : InRange s)
    (h : setOption s o = some s') : InRange s' := by
  have hpages := hs.pages
  have hchecking := hs.checking
  unfold Setting.setOption at h
  split_ifs at h <;> obtain rfl := Option.some.inj h
  · exact hs
  · exact ⟨hpages, hchecking⟩
  · exact ⟨hpages, hchecking⟩
  · exact ⟨hpages, hchecking⟩
  · exact ⟨tmod_nine _, hchecking⟩
  · exact ⟨⟨show (-8 : Int) ≤ 0 by decide, show (0 : Int) ≤ 8 by decide⟩, hchecking⟩
  · exact ⟨hpages, min_le_right _ _⟩

theorem InRange.setOptions {os : List ConfigOption} {left : Nat} {s : Options} (hs : InRange s) :
    InRange (setOptions os left s) := by
  induction os generalizing left s with
  | nil => exact hs
  | cons o os ih =>
      rw [Setting.setOptions]
      split
      · exact hs
      · cases h : Setting.setOption s o with
        | none => exact ih hs
        | some s' => exact ih (hs.setOption h)

theorem getOptions_inRange {file : List Char} {s : Options} (h : getOptions file = .ok s) :
    InRange s := by
  simp only [getOptions, bind_eq_ok] at h
  obtain ⟨options, -, hs⟩ := h
  obtain rfl := Except.ok.inj hs
  exact inRange_systemSetting.setOptions

end Jiajia.Setting
