import NovaProva.Core.Event

/-!
# Core — Syslog

`isyslog.c`: a test registers matchers for the messages the code under test sends to `syslog`,
and the mock of `syslog` decides by them what a message comes to.  One pass over the matchers
keeps the best one so far, and a message that is to be counted is counted there.

* `Disposition`, `Classifier`, `SlMatch`: the matchers and what they do with a message.
* `addSlmatch`, `npSyslogCount`, `findSlmatch`, `mockSyslog`: the functions of the file.
* `Matcher`, `registered`, `counted`: what a history of calls comes to, without the pass.
* `syslog_matchers`: the two agree after every history.

What `vsnprintf` makes of a format is given as a text, and the stack an event is sent with is
left out.
-/

namespace NovaProva.Syslog

/-! ### Matchers -/

/-- `sldisposition_t`. -/
inductive Disposition where
  | unknown
  | ignore
  | count
  | fail
  deriving DecidableEq, Repr

/-- Its number; of the matchers that match, the one with the largest decides. -/
def Disposition.code : Disposition → Nat
  | unknown => 0
  | ignore  => 1
  | count   => 2
  | fail    => 3

/-- Dispositions have different numbers. -/
theorem Disposition.code_injective : Function.Injective code := by
  intro a b h
  cases a <;> cases b <;> first | rfl | exact absurd h (by decide)

/-- What is used of `<regex.h>`: an expression is compiled or refused with the text `regerror`
has for it, and a compiled one matches a text or does not. -/
structure RegexLib (ρ : Type) where
  regcomp : CString → Except CString ρ
  regexec : ρ → CString → Bool

/-- `classifier_t`, with its two results. -/
structure Classifier (ρ : Type) where
  re : CString
  compiledRe : ρ
  failed : Disposition
  matched : Disposition

/-- `slmatch_t`. -/
structure SlMatch (ρ : Type) where
  classifier : Classifier ρ
  count : UInt32
  tag : Int

variable {ρ : Type}

/-- `classifier_t::classify` without a buffer for the match. -/
def Classifier.classify (lib : RegexLib ρ) (c : Classifier ρ) (func : CString) : Disposition :=
  if lib.regexec c.compiledRe func then c.matched else c.failed

/-- `slmatch_t::slmatch_t`, after `set_regexp`. -/
def slMatch (re : CString) (compiled : ρ) (dis : Disposition) (tag : Int) : SlMatch ρ where
  classifier := { re := re, compiledRe := compiled, failed := .unknown, matched := dis }
  count := 0
  tag := tag

/-! ### Registering -/

/-- The buffer of `classifier_t::error_string`. -/
def errorBuffer : Nat := 2048

/-- `classifier_t::error_string`.  The first `snprintf` leaves room for the message, but its
result is the length of the whole text: with an expression too long for that room the message
lands behind the end of the string, and with a longer one behind the end of the buffer. -/
def errorString (re message : CString) : Option CString :=
  let head := CString.ascii "/" ++ re.bytes ++ CString.ascii "/: "
  let n := head.length
  if n < errorBuffer - 100 then
    some (CString.ofBuffer (head ++ message.bytes.take (errorBuffer - n - 2)))
  else if n < errorBuffer then some (CString.snprintf (errorBuffer - 100) head)
  else none

/-- What a call comes to for its caller. -/
inductive Outcome where
  | done
  | counted (n : UInt32)
  | thrown (e : Event)
  | raised (e : Event)
  deriving DecidableEq

/-- `add_slmatch`; `none` is a write behind the buffer of the error message. -/
def addSlmatch (lib : RegexLib ρ) (re : CString) (dis : Disposition) (tag : Int)
    (slmatches : List (SlMatch ρ)) : Option (List (SlMatch ρ) × Outcome) :=
  match lib.regcomp re with
  | .ok compiled => some (slmatches ++ [slMatch re compiled dis tag], .done)
  | .error message =>
    (errorString re message).map fun msg =>
      (slmatches, .thrown { which := .slmatch, description := .text msg })

/-- `np_syslog_fail`. -/
def npSyslogFail (lib : RegexLib ρ) (re : CString) (slmatches : List (SlMatch ρ)) :
    Option (List (SlMatch ρ) × Outcome) :=
  addSlmatch lib re .fail 0 slmatches

/-- `np_syslog_ignore`. -/
def npSyslogIgnore (lib : RegexLib ρ) (re : CString) (slmatches : List (SlMatch ρ)) :
    Option (List (SlMatch ρ) × Outcome) :=
  addSlmatch lib re .ignore 0 slmatches

/-- `np_syslog_match`. -/
def npSyslogMatch (lib : RegexLib ρ) (re : CString) (tag : Int) (slmatches : List (SlMatch ρ)) :
    Option (List (SlMatch ρ) × Outcome) :=
  addSlmatch lib re .count tag slmatches

/-! ### Counting -/

/-- `%d`. -/
def decimalInt (n : Int) : List UInt8 :=
  if n < 0 then CString.ascii "-" ++ CString.decimal n.natAbs else CString.decimal n.natAbs

/-- The event that `np_syslog_count` throws when no matcher has the tag. -/
def unmatchedTag (tag : Int) : Event where
  which := .slmatch
  description :=
    .text (CString.snprintf 64 (CString.ascii "Unmatched syslog tag " ++ decimalInt tag))

/-- The loop of `np_syslog_count`: the count and the number of matchers it is of. -/
def countLoop (tag : Int) : List (SlMatch ρ) → UInt32 → Nat → UInt32 × Nat
  | [], count, nmatches => (count, nmatches)
  | slm :: rest, count, nmatches =>
    if tag < 0 ∨ slm.tag = tag then countLoop tag rest (count + slm.count) (nmatches + 1)
    else countLoop tag rest count nmatches

/-- `np_syslog_count`. -/
def npSyslogCount (tag : Int) (slmatches : List (SlMatch ρ)) : Except Event UInt32 :=
  let (count, nmatches) := countLoop tag slmatches 0 0
  if nmatches = 0 then .error (unmatchedTag tag) else .ok count

/-! ### Messages -/

/-- The loop of `find_slmatch`: the position and the disposition of the best matcher so far, the
next matcher being at position `i`. -/
def findLoop (lib : RegexLib ρ) (msg : CString) :
    List (SlMatch ρ) → Nat → Option (Nat × Disposition) → Option (Nat × Disposition)
  | [], _, most => most
  | slm :: rest, i, most =>
    let dis := slm.classifier.classify lib msg
    if dis ≠ .unknown then
      match most with
      | none => findLoop lib msg rest (i + 1) (some (i, dis))
      | some (j, mostdis) =>
        if dis.code > mostdis.code then findLoop lib msg rest (i + 1) (some (i, dis))
        else findLoop lib msg rest (i + 1) (some (j, mostdis))
    else findLoop lib msg rest (i + 1) most

/-- `count_++`. -/
def SlMatch.bump (slm : SlMatch ρ) : SlMatch ρ := { slm with count := slm.count + 1 }

/-- `find_slmatch`. -/
def findSlmatch (lib : RegexLib ρ) (msg : CString) (slmatches : List (SlMatch ρ)) :
    Disposition × List (SlMatch ρ) :=
  match findLoop lib msg slmatches 0 none with
  | none => (.fail, slmatches)
  | some (i, mostdis) =>
    if mostdis = .count then (mostdis, slmatches.modify i SlMatch.bump) else (mostdis, slmatches)

/-- `prioritynames`, in the order of `<syslog.h>`. -/
def prioritynames : List (String × Nat) :=
  [("alert", 1), ("crit", 2), ("debug", 7), ("emerg", 0), ("err", 3), ("error", 3), ("info", 6),
    ("none", 0x10), ("notice", 5), ("panic", 0), ("warn", 4), ("warning", 4)]

/-- `syslog_priority_name`; `LOG_PRIMASK` is 7. -/
def syslogPriorityName (prio : Nat) : List UInt8 :=
  match prioritynames.find? (fun c => c.2 = prio &&& 7) with
  | some c => CString.ascii c.1
  | none   => (CString.snprintf 32 (CString.decimal (prio &&& 7))).bytes

/-- `isspace`, in the C locale. -/
def isSpace (b : UInt8) : Bool := b = 0x20 || (9 ≤ b && b ≤ 13)

/-- `vlogmsg`, of what `vsnprintf` writes. -/
def vlogmsg (prio : Nat) (text : CString) : CString :=
  let head := (syslogPriorityName prio).take (1024 - 3) ++ CString.ascii ": "
  let buf := head ++ text.bytes.take (1024 - head.length - 1)
  CString.ofBuffer (buf.take 1 ++ ((buf.drop 1).reverse.dropWhile isSpace).reverse)

/-- `mock_syslog` and `mock___syslog_chk`. -/
def mockSyslog (lib : RegexLib ρ) (prio : Nat) (text : CString) (slmatches : List (SlMatch ρ)) :
    List (SlMatch ρ) × Outcome :=
  let msg := vlogmsg prio text
  let (dis, slmatches) := findSlmatch lib msg slmatches
  match dis with
  | .fail    => (slmatches, .thrown { which := .slmatch, description := .text msg })
  | .unknown => (slmatches, .raised { which := .syslog, description := .text msg })
  | .count   => (slmatches, .done)
  | .ignore  => (slmatches, .done)

/-! ### Histories -/

/-- What a test and the code under test call. -/
inductive Call where
  | fail (re : CString)
  | ignore (re : CString)
  | expect (re : CString) (tag : Int)
  | log (prio : Nat) (text : CString)
  | count (tag : Int)

/-- What a call leaves of the list, and how it ends. -/
def Call.run (lib : RegexLib ρ) (slmatches : List (SlMatch ρ)) :
    Call → Option (List (SlMatch ρ) × Outcome)
  | .fail re       => npSyslogFail lib re slmatches
  | .ignore re     => npSyslogIgnore lib re slmatches
  | .expect re tag => npSyslogMatch lib re tag slmatches
  | .log prio text => some (mockSyslog lib prio text slmatches)
  | .count tag     =>
    match npSyslogCount tag slmatches with
    | .ok n    => some (slmatches, .counted n)
    | .error e => some (slmatches, .thrown e)

/-- The matchers after a history. -/
def runCalls (lib : RegexLib ρ) (slmatches : List (SlMatch ρ)) :
    List Call → Option (List (SlMatch ρ))
  | [] => some slmatches
  | c :: cs => (c.run lib slmatches).bind fun r => runCalls lib r.1 cs

/-- What a matcher is registered with. -/
structure Matcher (ρ : Type) where
  dis : Disposition
  re : ρ
  tag : Int

/-- A matcher, without what it has counted. -/
def SlMatch.matcher (slm : SlMatch ρ) : Matcher ρ where
  dis := slm.classifier.matched
  re := slm.classifier.compiledRe
  tag := slm.tag

/-- The expression of the matcher is found in the message. -/
def Matcher.Matches (lib : RegexLib ρ) (msg : CString) (m : Matcher ρ) : Prop :=
  lib.regexec m.re msg = true

instance (lib : RegexLib ρ) (msg : CString) (m : Matcher ρ) : Decidable (m.Matches lib msg) :=
  inferInstanceAs (Decidable (_ = true))

/-- The matcher a call registers, if its expression is valid. -/
def Call.registers (lib : RegexLib ρ) : Call → List (Matcher ρ)
  | .fail re       => ((lib.regcomp re).toOption.map fun c => Matcher.mk .fail c 0).toList
  | .ignore re     => ((lib.regcomp re).toOption.map fun c => Matcher.mk .ignore c 0).toList
  | .expect re tag => ((lib.regcomp re).toOption.map fun c => Matcher.mk .count c tag).toList
  | .log _ _       => []
  | .count _       => []

/-- The matchers a history registers, in order. -/
def registered (lib : RegexLib ρ) (calls : List Call) : List (Matcher ρ) :=
  calls.flatMap (Call.registers lib)

/-- **What a message comes to**: a failure where nothing matches it, otherwise the greatest
disposition of the matchers that do. -/
structure Disposed (lib : RegexLib ρ) (ms : List (Matcher ρ)) (msg : CString) (d : Disposition) :
    Prop where
  none_matches : (∀ m ∈ ms, ¬ m.Matches lib msg) → d = .fail
  attained : (∃ m ∈ ms, m.Matches lib msg) → ∃ m ∈ ms, m.Matches lib msg ∧ m.dis = d
  greatest : ∀ m ∈ ms, m.Matches lib msg → m.dis.code ≤ d.code

/-- The first matcher that would count a message. -/
def counter (lib : RegexLib ρ) (msg : CString) (ms : List (Matcher ρ)) : Option (Matcher ρ) :=
  ms.find? fun m => m.dis = .count ∧ m.Matches lib msg

/-- The matcher that counts a message: the first that would, if no matcher fails the message. -/
def counting (lib : RegexLib ρ) (msg : CString) (ms : List (Matcher ρ)) : Option (Matcher ρ) :=
  if ∃ m ∈ ms, m.dis = .fail ∧ m.Matches lib msg then none else counter lib msg ms

/-- The tag of the matcher that counts a call's message. -/
def Call.counts (lib : RegexLib ρ) (ms : List (Matcher ρ)) : Call → List Int
  | .log prio text => ((counting lib (vlogmsg prio text) ms).map Matcher.tag).toList
  | .fail _ | .ignore _ | .expect _ _ | .count _ => []

/-- The tags of the matchers that count the messages of a history, message by message, when `ms`
are registered at its start. -/
def counted (lib : RegexLib ρ) (ms : List (Matcher ρ)) : List Call → List Int
  | [] => []
  | c :: cs => c.counts lib ms ++ counted lib (ms ++ c.registers lib) cs

/-- An expression that is refused is short enough for the buffer of the error message. -/
def Call.Fits (lib : RegexLib ρ) : Call → Prop
  | .fail re | .ignore re | .expect re _ =>
    (lib.regcomp re).toOption = none → re.bytes.length + 4 < errorBuffer
  | .log _ _ | .count _ => True

/-! ### The pass over the matchers -/

/-- The matchers as registered: they answer with their disposition or not at all. -/
def Built (ms : List (SlMatch ρ)) : Prop :=
  ∀ slm ∈ ms, slm.classifier.failed = .unknown ∧ slm.classifier.matched ≠ .unknown

/-- A matcher that `add_slmatch` made says something of a message exactly if it matches. -/
theorem classify_ne_unknown {lib : RegexLib ρ} {msg : CString} {slm : SlMatch ρ}
    (h : slm.classifier.failed = .unknown ∧ slm.classifier.matched ≠ .unknown) :
    slm.classifier.classify lib msg ≠ .unknown ↔ slm.matcher.Matches lib msg := by
  unfold Classifier.classify
  show _ ↔ lib.regexec slm.classifier.compiledRe msg = true
  split
  case isTrue hm => exact iff_of_true h.2 hm
  case isFalse hm => exact iff_of_false (not_not_intro h.1) hm

/-- A matcher that matches says what it was made for. -/
theorem classify_of_matches {lib : RegexLib ρ} {msg : CString} {slm : SlMatch ρ}
    (h : slm.matcher.Matches lib msg) :
    slm.classifier.classify lib msg = slm.matcher.dis := if_pos h

/-- **What the pass keeps.**  The best of the matchers up to here: nothing only if none of them
matches, otherwise the first of those with the greatest disposition. -/
structure Best (lib : RegexLib ρ) (msg : CString) (ms : List (SlMatch ρ))
    (most : Option (Nat × Disposition)) : Prop where
  none_matches : most = none → ∀ slm ∈ ms, ¬ slm.matcher.Matches lib msg
  is_match : ∀ i d, most = some (i, d) →
    ∃ slm, ms[i]? = some slm ∧ slm.matcher.Matches lib msg ∧ slm.matcher.dis = d
  greatest : ∀ i d, most = some (i, d) →
    ∀ slm ∈ ms, slm.matcher.Matches lib msg → slm.matcher.dis.code ≤ d.code
  first : ∀ i d, most = some (i, d) → ∀ j slm, j < i → ms[j]? = some slm →
    slm.matcher.Matches lib msg → slm.matcher.dis.code < d.code

section Pass

variable {lib : RegexLib ρ} {msg : CString} {ms : List (SlMatch ρ)} {slm : SlMatch ρ}

/-- Of no matchers none is the best. -/
theorem Best.nil : Best lib msg ([] : List (SlMatch ρ)) none where
  none_matches _ _ h := absurd h List.not_mem_nil
  is_match _ _ h := absurd h.symm (Option.some_ne_none _)
  greatest _ _ h := absurd h.symm (Option.some_ne_none _)
  first _ _ h := absurd h.symm (Option.some_ne_none _)

/-- A matcher that is no better than the one kept. -/
theorem Best.keep {most : Option (Nat × Disposition)} (h : Best lib msg ms most)
    (hnone : most = none → ¬ slm.matcher.Matches lib msg)
    (hle : ∀ i d, most = some (i, d) → slm.matcher.Matches lib msg →
      slm.matcher.dis.code ≤ d.code) :
    Best lib msg (ms ++ [slm]) most where
  none_matches hm x hx := by
    rcases List.mem_append.mp hx with hx | hx
    · exact h.none_matches hm x hx
    · rw [List.mem_singleton.mp hx]
      exact hnone hm
  is_match i d hm := by
    obtain ⟨x, hx, hmatch, hd⟩ := h.is_match i d hm
    have hi : i < ms.length := (List.getElem?_eq_some_iff.mp hx).1
    exact ⟨x, by rw [List.getElem?_append_left hi]; exact hx, hmatch, hd⟩
  greatest i d hm x hx hmatch := by
    rcases List.mem_append.mp hx with hx | hx
    · exact h.greatest i d hm x hx hmatch
    · rw [List.mem_singleton.mp hx] at hmatch ⊢
      exact hle i d hm hmatch
  first i d hm j x hj hx := by
    obtain ⟨y, hy, -⟩ := h.is_match i d hm
    have hi : i < ms.length := (List.getElem?_eq_some_iff.mp hy).1
    rw [List.getElem?_append_left (by omega)] at hx
    exact h.first i d hm j x hj hx

/-- A matcher that is better than every one before it. -/
theorem Best.take {most : Option (Nat × Disposition)} (h : Best lib msg ms most)
    (hmatch : slm.matcher.Matches lib msg)
    (hlt : ∀ i d, most = some (i, d) → d.code < slm.matcher.dis.code) :
    Best lib msg (ms ++ [slm]) (some (ms.length, slm.matcher.dis)) := by
  -- whatever is kept so far is less, so every matcher before is
  have hless : ∀ x ∈ ms, x.matcher.Matches lib msg → x.matcher.dis.code < slm.matcher.dis.code := by
    intro x hx hxm
    cases hmost : most with
    | none => exact absurd hxm (h.none_matches hmost x hx)
    | some best =>
      have hle := h.greatest best.1 best.2 hmost x hx hxm
      have hlt := hlt best.1 best.2 hmost
      omega
  refine ⟨fun hn => absurd hn (Option.some_ne_none _), ?_, ?_, ?_⟩ <;> intro i d hm <;>
    obtain ⟨rfl, rfl⟩ := Prod.mk.inj (Option.some.inj hm)
  · exact ⟨slm, by simp, hmatch, rfl⟩
  · intro x hx hxm
    rcases List.mem_append.mp hx with hx | hx
    · exact Nat.le_of_lt (hless x hx hxm)
    · rw [List.mem_singleton.mp hx]
  · intro j x hj hx hxm
    rw [List.getElem?_append_left hj] at hx
    exact hless x (List.mem_of_getElem? hx) hxm

/-- The pass, from the matchers before. -/
theorem findLoop_best {rest : List (SlMatch ρ)} {most : Option (Nat × Disposition)}
    (hbuilt : Built rest) (h : Best lib msg ms most) :
    Best lib msg (ms ++ rest) (findLoop lib msg rest ms.length most) := by
  induction rest generalizing ms most with
  | nil =>
    rw [List.append_nil]
    exact h
  | cons slm rest ih =>
    have hrest : Built rest := fun x hx => hbuilt x (List.mem_cons_of_mem _ hx)
    have hslm := hbuilt slm List.mem_cons_self
    have hcons : ms ++ slm :: rest = (ms ++ [slm]) ++ rest := by simp
    have hlen : ms.length + 1 = (ms ++ [slm]).length := by simp
    simp only [findLoop]
    rw [hcons, hlen]
    split
    case isFalse hunknown =>
      have hno : ¬ slm.matcher.Matches lib msg := mt (classify_ne_unknown hslm).mpr hunknown
      exact ih hrest (h.keep (fun _ => hno) fun _ _ _ hm => absurd hm hno)
    case isTrue hknown =>
      have hmatch := (classify_ne_unknown hslm).mp hknown
      rw [classify_of_matches hmatch]
      split
      case h_1 =>
        exact ih hrest (h.take hmatch fun _ _ hn => absurd hn.symm (Option.some_ne_none _))
      case h_2 j mostdis =>
        split
        case isTrue hgt =>
          refine ih hrest (h.take hmatch fun i d hm => ?_)
          obtain ⟨-, rfl⟩ := Prod.mk.inj (Option.some.inj hm)
          exact hgt
        case isFalse hle =>
          refine ih hrest (h.keep (fun hn => absurd hn (Option.some_ne_none _)) fun i d hm _ => ?_)
          obtain ⟨-, rfl⟩ := Prod.mk.inj (Option.some.inj hm)
          exact Nat.not_lt.mp hle

/-- **The loop finds the best matcher.** -/
theorem best_findLoop (lib : RegexLib ρ) (msg : CString) (h : Built ms) :
    Best lib msg ms (findLoop lib msg ms 0 none) :=
  findLoop_best h Best.nil

/-! ### One message -/

/-- Something of a matcher, with or without what it has counted. -/
theorem mem_matchers {P : Matcher ρ → Prop} :
    (∃ m ∈ ms.map SlMatch.matcher, P m) ↔ ∃ x ∈ ms, P x.matcher := by simp

/-- A matcher of `ms` by its position. -/
theorem modify_bump {i : Nat} {x : SlMatch ρ} (h : ms[i]? = some x) :
    ms = ms.take i ++ x :: ms.drop (i + 1) ∧
      ms.modify i SlMatch.bump = ms.take i ++ x.bump :: ms.drop (i + 1) := by
  obtain ⟨hi, rfl⟩ := List.getElem?_eq_some_iff.mp h
  refine ⟨by simp, ?_⟩
  rw [List.modify_eq_take_cons_drop hi]

/-- Where no matcher matches, the message fails the test. -/
theorem findSlmatch_none (h : findLoop lib msg ms 0 none = none) :
    findSlmatch lib msg ms = (.fail, ms) := by
  unfold findSlmatch
  rw [h]

/-- Otherwise the best decides, and counts if it is there to count. -/
theorem findSlmatch_some {i : Nat} {d : Disposition}
    (h : findLoop lib msg ms 0 none = some (i, d)) :
    findSlmatch lib msg ms =
      (d, if d = .count then ms.modify i SlMatch.bump else ms) := by
  unfold findSlmatch
  rw [h]
  show (if d = .count then _ else _) = _
  split <;> rfl

/-- **What becomes of a message**, from the matchers alone. -/
theorem disposed_findSlmatch (lib : RegexLib ρ) (msg : CString) (h : Built ms) :
    Disposed lib (ms.map SlMatch.matcher) msg (findSlmatch lib msg ms).1 := by
  have hbest := best_findLoop lib msg h
  cases hloop : findLoop lib msg ms 0 none with
  | none =>
    have hno := hbest.none_matches hloop
    rw [findSlmatch_none hloop]
    refine ⟨fun _ => rfl, ?_, ?_⟩
    · rintro ⟨m, hm, hmatch⟩
      obtain ⟨x, hx, rfl⟩ := List.mem_map.mp hm
      exact absurd hmatch (hno x hx)
    · intro m hm hmatch
      obtain ⟨x, hx, rfl⟩ := List.mem_map.mp hm
      exact absurd hmatch (hno x hx)
  | some best =>
    obtain ⟨x, hx, hmatch, hd⟩ := hbest.is_match best.1 best.2 hloop
    have hmem : x.matcher ∈ ms.map SlMatch.matcher := List.mem_map_of_mem (List.mem_of_getElem? hx)
    rw [findSlmatch_some hloop]
    refine ⟨fun hno => absurd hmatch (hno _ hmem), fun _ => ⟨_, hmem, hmatch, hd⟩, ?_⟩
    intro m hm hmm
    obtain ⟨y, hy, rfl⟩ := List.mem_map.mp hm
    exact hbest.greatest best.1 best.2 hloop y hy hmm

/-- **One message, one count.**  A message that is to be counted is counted by the first matcher
that would; any other leaves the matchers alone. -/
theorem findSlmatch_counts (lib : RegexLib ρ) (msg : CString) (h : Built ms) :
    ((findSlmatch lib msg ms).1 = .count →
      ∃ pre x post, ms = pre ++ x :: post ∧ x.matcher.dis = .count ∧ x.matcher.Matches lib msg ∧
        (∀ y ∈ pre, ¬ (y.matcher.dis = .count ∧ y.matcher.Matches lib msg)) ∧
        (findSlmatch lib msg ms).2 = pre ++ x.bump :: post) ∧
    ((findSlmatch lib msg ms).1 ≠ .count → (findSlmatch lib msg ms).2 = ms) := by
  have hbest := best_findLoop lib msg h
  cases hloop : findLoop lib msg ms 0 none with
  | none =>
    rw [findSlmatch_none hloop]
    exact ⟨fun hc => absurd (show Disposition.fail = .count from hc) (by decide), fun _ => rfl⟩
  | some best =>
    obtain ⟨x, hx, hmatch, hd⟩ := hbest.is_match best.1 best.2 hloop
    rw [findSlmatch_some hloop]
    refine ⟨fun hc => ?_, fun hc => if_neg hc⟩
    replace hc : best.2 = .count := hc
    obtain ⟨hsplit, hbump⟩ := modify_bump hx
    refine ⟨_, x, _, hsplit, hd.trans hc, hmatch, ?_, (if_pos hc).trans hbump⟩
    rintro y hy ⟨hyd, hym⟩
    obtain ⟨j, hj, hyj⟩ := List.getElem_of_mem hy
    rw [List.length_take] at hj
    have hy' : ms[j]? = some y := by
      rw [← hyj, List.getElem_take, List.getElem?_eq_getElem]
    have hlt := hbest.first best.1 best.2 hloop j y (by omega) hy' hym
    rw [hyd, hc] at hlt
    exact absurd hlt (Nat.lt_irrefl _)

/-- The disposition does not depend on the order of the matchers. -/
theorem Disposed.unique {rs rs' : List (Matcher ρ)} {d d' : Disposition}
    (hmem : ∀ m, m ∈ rs ↔ m ∈ rs') (h : Disposed lib rs msg d) (h' : Disposed lib rs' msg d') :
    d = d' := by
  by_cases hsome : ∃ m ∈ rs, m.Matches lib msg
  · have hsome' : ∃ m ∈ rs', m.Matches lib msg := by
      obtain ⟨m, hm, hmatch⟩ := hsome
      exact ⟨m, (hmem m).mp hm, hmatch⟩
    obtain ⟨m, hm, hmatch, rfl⟩ := h.attained hsome
    obtain ⟨m', hm', hmatch', rfl⟩ := h'.attained hsome'
    have hle := h'.greatest m ((hmem m).mp hm) hmatch
    have hge := h.greatest m' ((hmem m').mpr hm') hmatch'
    exact Disposition.code_injective (Nat.le_antisymm hle hge)
  · have hno : ∀ m ∈ rs, ¬ m.Matches lib msg := fun m hm hmatch => hsome ⟨m, hm, hmatch⟩
    rw [h.none_matches hno, h'.none_matches fun m hm => hno m ((hmem m).mpr hm)]

/-- A matcher counts a message just if that is what the message comes to. -/
theorem counting_isSome {rs : List (Matcher ρ)} {d : Disposition} (h : Disposed lib rs msg d)
    (hknown : ∀ m ∈ rs, m.dis ≠ .unknown) : (counting lib msg rs).isSome ↔ d = .count := by
  unfold counting
  split
  case isTrue hfail =>
    obtain ⟨m, hm, hdis, hmatch⟩ := hfail
    have hle := h.greatest m hm hmatch
    rw [hdis] at hle
    refine iff_of_false (by simp) fun hd => ?_
    rw [hd] at hle
    exact absurd hle (by decide)
  case isFalse hfail =>
    unfold counter
    rw [List.find?_isSome]
    simp only [decide_eq_true_eq]
    constructor
    · rintro ⟨m, hm, hdis, hmatch⟩
      obtain ⟨m', hm', hmatch', rfl⟩ := h.attained ⟨m, hm, hmatch⟩
      have hle := h.greatest m hm hmatch
      rw [hdis] at hle
      cases hd : m'.dis with
      | unknown => exact absurd hd (hknown m' hm')
      | ignore => rw [hd] at hle; exact absurd hle (by decide)
      | count => rfl
      | fail => exact absurd ⟨m', hm', hd, hmatch'⟩ hfail
    · rintro rfl
      have hsome : ∃ m ∈ rs, m.Matches lib msg := by
        by_contra hno
        exact absurd (h.none_matches fun m hm hmatch => hno ⟨m, hm, hmatch⟩) (by decide)
      obtain ⟨m, hm, hmatch, hdis⟩ := h.attained hsome
      exact ⟨m, hm, hdis, hmatch⟩

end Pass

/-! ### Totals -/

/-- The sum of the counts of the matchers with a tag of `p`. -/
def total (p : Int → Bool) (ms : List (SlMatch ρ)) : UInt32 :=
  ((ms.filter fun slm => p slm.tag).map SlMatch.count).sum

/-- The counts of two lists add up. -/
theorem total_append (p : Int → Bool) (ms ms' : List (SlMatch ρ)) :
    total p (ms ++ ms') = total p ms + total p ms' := by
  unfold total
  rw [List.filter_append, List.map_append, List.sum_append]

/-- The counts of a matcher and a list add up. -/
theorem total_cons (p : Int → Bool) (slm : SlMatch ρ) (ms : List (SlMatch ρ)) :
    total p (slm :: ms) = (if p slm.tag then slm.count else 0) + total p ms := by
  unfold total
  rw [List.filter_cons]
  split
  case isTrue => rw [List.map_cons, List.sum_cons]
  case isFalse => rw [UInt32.zero_add]

/-- A new matcher has counted nothing. -/
theorem total_register (p : Int → Bool) (ms : List (SlMatch ρ)) (re : CString) (c : ρ)
    (dis : Disposition) (tag : Int) : total p (ms ++ [slMatch re c dis tag]) = total p ms := by
  have hnew : total p [slMatch re c dis tag] = 0 := by
    rw [total_cons]
    show (if p tag then (0 : UInt32) else 0) + 0 = 0
    rw [ite_self, UInt32.add_zero]
  rw [total_append, hnew, UInt32.add_zero]

/-- A match adds one to the counts of its tag. -/
theorem total_bump (p : Int → Bool) (pre post : List (SlMatch ρ)) (slm : SlMatch ρ) :
    total p (pre ++ slm.bump :: post) =
      total p (pre ++ slm :: post) + UInt32.ofNat ([slm.tag].countP p) := by
  rw [total_append, total_append, total_cons, total_cons]
  show total p pre + ((if p slm.tag then slm.count + 1 else 0) + total p post) = _
  cases hp : p slm.tag with
  | true =>
    have hone : UInt32.ofNat ([slm.tag].countP p) = 1 := by simp [hp]
    rw [hone, if_pos rfl, if_pos rfl]
    ac_rfl
  | false =>
    have hzero : UInt32.ofNat ([slm.tag].countP p) = 0 := by simp [hp]
    rw [hzero, UInt32.add_zero]
    simp

/-- The loop adds the counts up, and counts the matchers with the tag. -/
theorem countLoop_eq (tag : Int) (ms : List (SlMatch ρ)) (count : UInt32) (n : Nat) :
    countLoop tag ms count n =
      (count + total (fun t => tag < 0 ∨ t = tag) ms,
        n + ms.countP fun slm => tag < 0 ∨ slm.tag = tag) := by
  induction ms generalizing count n with
  | nil => simp [countLoop, total]
  | cons slm ms ih =>
    rw [total_cons, List.countP_cons]
    simp only [countLoop]
    split
    case isTrue h =>
      rw [ih, if_pos (decide_eq_true h), if_pos (decide_eq_true h), UInt32.add_assoc]
      congr 1
      omega
    case isFalse h =>
      rw [ih, if_neg (by simpa using h), if_neg (by simpa using h), UInt32.zero_add]
      rfl

/-- The count is the total of the matchers it is of, if there are any. -/
theorem npSyslogCount_eq {tag : Int} {ms : List (SlMatch ρ)}
    (h : ∃ slm ∈ ms, tag < 0 ∨ slm.tag = tag) :
    npSyslogCount tag ms = .ok (total (fun t => tag < 0 ∨ t = tag) ms) := by
  have hpos : 0 < ms.countP fun slm => tag < 0 ∨ slm.tag = tag := by
    rw [List.countP_pos_iff]
    simpa using h
  unfold npSyslogCount
  rw [countLoop_eq]
  show (if 0 + _ = 0 then _ else _) = _
  rw [if_neg (by omega), UInt32.zero_add]

/-! ### Whole histories -/

section Run

variable {lib : RegexLib ρ} {ms ms' : List (SlMatch ρ)}

/-- What one call does to the matchers. -/
structure Advances (lib : RegexLib ρ) (c : Call) (ms ms' : List (SlMatch ρ)) : Prop where
  built : Built ms'
  matchers : ms'.map SlMatch.matcher = ms.map SlMatch.matcher ++ c.registers lib
  total : ∀ p, total p ms' =
    total p ms + UInt32.ofNat ((c.counts lib (ms.map SlMatch.matcher)).countP p)

/-- A call that neither registers nor counts. -/
theorem Advances.same {c : Call} (h : Built ms) (hregisters : c.registers lib = [])
    (hcounts : c.counts lib (ms.map SlMatch.matcher) = []) : Advances lib c ms ms where
  built := h
  matchers := by rw [hregisters, List.append_nil]
  total p := by
    rw [hcounts]
    exact (UInt32.add_zero _).symm

/-- The three calls that register a matcher. -/
theorem advances_addSlmatch {c : Call} {re : CString} {dis : Disposition} {tag : Int} {o : Outcome}
    (h : Built ms) (hdis : dis ≠ .unknown)
    (hregisters : c.registers lib = ((lib.regcomp re).toOption.map fun x => ⟨dis, x, tag⟩).toList)
    (hcounts : c.counts lib (ms.map SlMatch.matcher) = [])
    (hadd : addSlmatch lib re dis tag ms = some (ms', o)) : Advances lib c ms ms' := by
  unfold addSlmatch at hadd
  cases hcomp : lib.regcomp re with
  | error e =>
    rw [hcomp] at hadd hregisters
    obtain ⟨msg, -, heq⟩ := Option.map_eq_some_iff.mp hadd
    obtain ⟨rfl, -⟩ := Prod.mk.inj heq
    exact .same h hregisters hcounts
  | ok compiled =>
    rw [hcomp] at hadd hregisters
    obtain ⟨rfl, -⟩ := Prod.mk.inj (Option.some.inj hadd)
    refine ⟨?_, ?_, ?_⟩
    · intro slm hslm
      rcases List.mem_append.mp hslm with hslm | hslm
      · exact h slm hslm
      · rw [List.mem_singleton.mp hslm]
        exact ⟨rfl, hdis⟩
    · rw [hregisters, List.map_append]
      rfl
    · intro p
      rw [total_register, hcounts]
      exact (UInt32.add_zero _).symm

/-- No matcher counts a message that is not to be counted. -/
theorem counting_eq_none {rs : List (Matcher ρ)} {msg : CString} {d : Disposition}
    (h : Disposed lib rs msg d) (hknown : ∀ m ∈ rs, m.dis ≠ .unknown) (hd : d ≠ .count) :
    counting lib msg rs = none := by
  rw [← Option.not_isSome_iff_eq_none]
  exact mt (counting_isSome h hknown).mp hd

/-- The matcher that counts is the first that would. -/
theorem counting_eq_some {msg : CString} {d : Disposition} {pre post : List (SlMatch ρ)}
    {x : SlMatch ρ} (h : Disposed lib ((pre ++ x :: post).map SlMatch.matcher) msg d)
    (hd : d = .count) (hx : x.matcher.dis = .count ∧ x.matcher.Matches lib msg)
    (hfirst : ∀ y ∈ pre, ¬ (y.matcher.dis = .count ∧ y.matcher.Matches lib msg)) :
    counting lib msg ((pre ++ x :: post).map SlMatch.matcher) = some x.matcher := by
  have hfail : ¬ ∃ m ∈ (pre ++ x :: post).map SlMatch.matcher,
      m.dis = .fail ∧ m.Matches lib msg := by
    rintro ⟨m, hm, hdis, hmatch⟩
    have hle := h.greatest m hm hmatch
    rw [hdis, hd] at hle
    exact absurd hle (by decide)
  have hpre : (pre.map SlMatch.matcher).find?
      (fun m => decide (m.dis = .count ∧ m.Matches lib msg)) = none := by
    rw [List.find?_eq_none]
    intro m hm
    obtain ⟨y, hy, rfl⟩ := List.mem_map.mp hm
    simpa using hfirst y hy
  unfold counting counter
  rw [if_neg hfail, List.map_append, List.find?_append, hpre, Option.none_or, List.map_cons,
    List.find?_cons_of_pos]
  exact decide_eq_true hx

/-- Every matcher is there for something. -/
theorem matchers_known (h : Built ms) : ∀ m ∈ ms.map SlMatch.matcher, m.dis ≠ .unknown := by
  intro m hm
  obtain ⟨x, hx, rfl⟩ := List.mem_map.mp hm
  exact (h x hx).2

/-- What a message leaves of the list. -/
theorem mockSyslog_fst (prio : Nat) (text : CString) :
    (mockSyslog lib prio text ms).1 = (findSlmatch lib (vlogmsg prio text) ms).2 := by
  unfold mockSyslog
  simp only
  split <;> rfl

/-- **A message counts** for the tag of the matcher that decides, and for no other. -/
theorem advances_log (lib : RegexLib ρ) (h : Built ms) (prio : Nat) (text : CString) :
    Advances lib (.log prio text) ms (mockSyslog lib prio text ms).1 := by
  rw [mockSyslog_fst]
  have hdisposed := disposed_findSlmatch lib (vlogmsg prio text) h
  obtain ⟨hcount, hother⟩ := findSlmatch_counts lib (vlogmsg prio text) h
  by_cases hd : (findSlmatch lib (vlogmsg prio text) ms).1 = .count
  · obtain ⟨pre, x, post, rfl, hdis, hmatch, hfirst, hbump⟩ := hcount hd
    have hcounting := counting_eq_some hdisposed hd ⟨hdis, hmatch⟩ hfirst
    rw [hbump]
    refine ⟨?_, ?_, ?_⟩
    · intro slm hslm
      rcases List.mem_append.mp hslm with hslm | hslm
      · exact h slm (List.mem_append_left _ hslm)
      · rcases List.mem_cons.mp hslm with rfl | hslm
        · exact h x (List.mem_append_right _ List.mem_cons_self)
        · exact h slm (List.mem_append_right _ (List.mem_cons_of_mem _ hslm))
    · show _ = _ ++ []
      rw [List.append_nil, List.map_append, List.map_append]
      rfl
    · intro p
      rw [total_bump]
      show _ = _ + UInt32.ofNat (List.countP p (Option.map _ (counting lib _ _)).toList)
      rw [hcounting]
      rfl
  · rw [hother hd]
    refine .same h rfl ?_
    show (Option.map _ (counting lib _ _)).toList = []
    rw [counting_eq_none hdisposed (matchers_known h) hd]
    rfl

/-- **Step.**  Every call registers what it is to and counts what it is to. -/
theorem advances_run {c : Call} {o : Outcome} (h : Built ms) (hrun : c.run lib ms = some (ms', o)) :
    Advances lib c ms ms' := by
  cases c with
  | fail re => exact advances_addSlmatch h (by decide) rfl rfl hrun
  | ignore re => exact advances_addSlmatch h (by decide) rfl rfl hrun
  | expect re tag => exact advances_addSlmatch h (by decide) rfl rfl hrun
  | log prio text =>
    have heq : mockSyslog lib prio text ms = (ms', o) := Option.some.inj hrun
    have hadv := advances_log lib h prio text
    rw [heq] at hadv
    exact hadv
  | count tag =>
    have heq : ms' = ms := by
      simp only [Call.run] at hrun
      split at hrun <;> exact (Prod.mk.inj (Option.some.inj hrun)).1.symm
    rw [heq]
    exact .same h rfl rfl

/-- **Run.**  From any matchers on. -/
theorem runCalls_spec {calls : List Call} (h : Built ms) (hrun : runCalls lib ms calls = some ms') :
    Built ms' ∧ ms'.map SlMatch.matcher = ms.map SlMatch.matcher ++ registered lib calls ∧
      ∀ p, total p ms' =
        total p ms + UInt32.ofNat ((counted lib (ms.map SlMatch.matcher) calls).countP p) := by
  induction calls generalizing ms with
  | nil =>
    obtain rfl := Option.some.inj hrun
    exact ⟨h, (List.append_nil _).symm, fun p => (UInt32.add_zero _).symm⟩
  | cons c cs ih =>
    obtain ⟨r, hr, hrest⟩ := Option.bind_eq_some_iff.mp hrun
    have hadv := advances_run h hr
    obtain ⟨hbuilt, hmatchers, htotal⟩ := ih hadv.built hrest
    refine ⟨hbuilt, ?_, ?_⟩
    · rw [hmatchers, hadv.matchers, List.append_assoc]
      rfl
    · intro p
      simp only [counted]
      rw [htotal, hadv.total, hadv.matchers, List.countP_append, UInt32.ofNat_add,
        UInt32.add_assoc]

/-- An expression that is refused throws and registers nothing. -/
theorem addSlmatch_error {re : CString} (dis : Disposition) (tag : Int) (ms : List (SlMatch ρ))
    (hre : (lib.regcomp re).toOption = none) (hlen : re.bytes.length + 4 < errorBuffer) :
    ∃ e, addSlmatch lib re dis tag ms = some (ms, .thrown e) := by
  have hn : (CString.ascii "/" ++ re.bytes ++ CString.ascii "/: ").length < errorBuffer := by
    have hslash : (CString.ascii "/").length = 1 := by decide
    have hcolon : (CString.ascii "/: ").length = 3 := by decide
    rw [List.length_append, List.length_append, hslash, hcolon]
    omega
  unfold addSlmatch
  cases hcomp : lib.regcomp re with
  | ok c =>
    rw [hcomp] at hre
    exact absurd hre (Option.some_ne_none _)
  | error message =>
    have hsome : ∃ msg, errorString re message = some msg := by
      unfold errorString
      simp only
      split
      · exact ⟨_, rfl⟩
      · exact ⟨_, rfl⟩
    obtain ⟨msg, hmsg⟩ := hsome
    show ∃ e, (errorString re message).map _ = _
    rw [hmsg]
    exact ⟨_, rfl⟩

/-- A matcher is added, unless its error message does not fit into the buffer. -/
theorem addSlmatch_total {re : CString} (dis : Disposition) (tag : Int) (ms : List (SlMatch ρ))
    (h : (lib.regcomp re).toOption = none → re.bytes.length + 4 < errorBuffer) :
    ∃ r, addSlmatch lib re dis tag ms = some r := by
  cases hcomp : (lib.regcomp re).toOption with
  | none =>
    obtain ⟨e, he⟩ := addSlmatch_error dis tag ms hcomp (h hcomp)
    exact ⟨_, he⟩
  | some c =>
    unfold addSlmatch
    cases hre : lib.regcomp re with
    | ok x => exact ⟨_, rfl⟩
    | error e =>
      rw [hre] at hcomp
      exact absurd hcomp.symm (Option.some_ne_none _)

/-- A call returns if its error messages fit. -/
theorem Call.run_total {c : Call} (h : c.Fits lib) (ms : List (SlMatch ρ)) :
    ∃ r, c.run lib ms = some r := by
  cases c with
  | fail re => exact addSlmatch_total _ _ ms h
  | ignore re => exact addSlmatch_total _ _ ms h
  | expect re tag => exact addSlmatch_total _ _ ms h
  | log prio text => exact ⟨_, rfl⟩
  | count tag =>
    simp only [Call.run]
    split <;> exact ⟨_, rfl⟩

/-- Calls return if all their error messages fit. -/
theorem runCalls_total {calls : List Call} (h : ∀ c ∈ calls, c.Fits lib) (ms : List (SlMatch ρ)) :
    ∃ ms', runCalls lib ms calls = some ms' := by
  induction calls generalizing ms with
  | nil => exact ⟨ms, rfl⟩
  | cons c cs ih =>
    obtain ⟨r, hr⟩ := c.run_total (h c List.mem_cons_self) ms
    obtain ⟨ms', hms'⟩ := ih (fun x hx => h x (List.mem_cons_of_mem _ hx)) r.1
    refine ⟨ms', ?_⟩
    simp only [runCalls]
    rw [hr]
    exact hms'

end Run

/-- What the matchers of a history do with messages, and what their counts have come to. -/
structure MatchersMeet (lib : RegexLib ρ) (calls : List Call) (ms : List (SlMatch ρ)) : Prop where
  disposed : ∀ msg, Disposed lib (registered lib calls) msg (findSlmatch lib msg ms).1
  any_order : ∀ calls' ms', runCalls lib [] calls' = some ms' →
    (registered lib calls').Perm (registered lib calls) →
      ∀ msg, (findSlmatch lib msg ms').1 = (findSlmatch lib msg ms).1
  counts_first : ∀ msg, (findSlmatch lib msg ms).1 = .count →
    ∃ pre x post, ms = pre ++ x :: post ∧ x.matcher.dis = .count ∧ x.matcher.Matches lib msg ∧
      (∀ y ∈ pre, ¬ (y.matcher.dis = .count ∧ y.matcher.Matches lib msg)) ∧
      (findSlmatch lib msg ms).2 = pre ++ x.bump :: post
  counts_no_other : ∀ msg, (findSlmatch lib msg ms).1 ≠ .count → (findSlmatch lib msg ms).2 = ms
  is_counted : ∀ msg,
    (counting lib msg (registered lib calls)).isSome ↔ (findSlmatch lib msg ms).1 = .count
  count_tag : ∀ t : Int, 0 ≤ t → (∃ m ∈ registered lib calls, m.tag = t) →
    npSyslogCount t ms = .ok (UInt32.ofNat ((counted lib [] calls).count t))
  count_all : ∀ t : Int, t < 0 → registered lib calls ≠ [] →
    npSyslogCount t ms = .ok (UInt32.ofNat (counted lib [] calls).length)
  invalid : ∀ re dis tag, (lib.regcomp re).toOption = none → re.bytes.length + 4 < errorBuffer →
    ∃ e, addSlmatch lib re dis tag ms = some (ms, .thrown e)

/-- The number of counted messages the matchers of a history have come to, whatever their tags. -/
theorem npSyslogCount_counted {lib : RegexLib ρ} {calls : List Call} {ms : List (SlMatch ρ)}
    {t : Int} (hrun : runCalls lib [] calls = some ms)
    (huse : ∃ m ∈ registered lib calls, t < 0 ∨ m.tag = t) :
    npSyslogCount t ms =
      .ok (UInt32.ofNat ((counted lib [] calls).countP fun t' => t < 0 ∨ t' = t)) := by
  have hnil : Built ([] : List (SlMatch ρ)) := fun _ h => absurd h List.not_mem_nil
  obtain ⟨-, hmatchers, htotal⟩ := runCalls_spec hnil hrun
  have hsome : ∃ slm ∈ ms, t < 0 ∨ slm.tag = t := by
    rw [← List.nil_append (registered lib calls)] at huse
    exact mem_matchers.mp (hmatchers ▸ huse)
  rw [npSyslogCount_eq hsome, htotal]
  exact congrArg Except.ok (UInt32.zero_add _)

/-- **The matchers of a test.**  Over every history of registrations and messages, a message fails
where nothing matches it and otherwise comes to the greatest disposition of the matchers that do,
in whatever order these were registered; one that is to be counted is counted once, by the first
matcher that would, and the counts of a tag in use, or of all tags where a matcher is registered,
are the numbers of such messages in the type they are returned in. -/
theorem syslog_matchers (lib : RegexLib ρ) (calls : List Call) (h : ∀ c ∈ calls, c.Fits lib) :
    ∃ ms, runCalls lib [] calls = some ms ∧ MatchersMeet lib calls ms := by
  have hnil : Built ([] : List (SlMatch ρ)) := fun _ h => absurd h List.not_mem_nil
  obtain ⟨ms, hrun⟩ := runCalls_total h []
  obtain ⟨hbuilt, hmatchers, -⟩ := runCalls_spec hnil hrun
  replace hmatchers : ms.map SlMatch.matcher = registered lib calls := hmatchers
  have hdisposed : ∀ msg, Disposed lib (registered lib calls) msg (findSlmatch lib msg ms).1 :=
    fun msg => hmatchers ▸ disposed_findSlmatch lib msg hbuilt
  refine ⟨ms, hrun, hdisposed, ?_, ?_, ?_, ?_, ?_, ?_, ?_⟩
  · intro calls' ms' hrun' hperm msg
    obtain ⟨hbuilt', hmatchers', -⟩ := runCalls_spec hnil hrun'
    replace hmatchers' : ms'.map SlMatch.matcher = registered lib calls' := hmatchers'
    exact Disposed.unique (fun m => hperm.mem_iff)
      (hmatchers' ▸ disposed_findSlmatch lib msg hbuilt') (hdisposed msg)
  · exact fun msg => (findSlmatch_counts lib msg hbuilt).1
  · exact fun msg => (findSlmatch_counts lib msg hbuilt).2
  · exact fun msg => counting_isSome (hdisposed msg) (hmatchers ▸ matchers_known hbuilt)
  · rintro t ht ⟨m, hm, hmt⟩
    rw [npSyslogCount_counted hrun ⟨m, hm, .inr hmt⟩, List.count]
    congr 3
    funext t'
    have hneg : ¬ t < 0 := by omega
    simp [hneg, beq_eq_decide]
  · intro t ht hne
    obtain ⟨m, hm⟩ := List.exists_mem_of_ne_nil _ hne
    rw [npSyslogCount_counted hrun ⟨m, hm, .inl ht⟩]
    simp [ht]
  · exact fun re dis tag => addSlmatch_error dis tag ms

/-- Expressions without special characters; one with an opening bracket is refused. -/
def literals : RegexLib (List UInt8) where
  regcomp re :=
    if 0x5b ∈ re.bytes then .error (CString.ofBuffer (CString.ascii "Unmatched ["))
    else .ok re.bytes
  regexec re msg := msg.bytes.tails.any re.isPrefixOf

/-- The text as a string of the code. -/
def text (s : String) : CString := CString.ofBuffer (CString.ascii s)

/-- Two matchers for one message, and a third that is refused. -/
def hashtags : List Call :=
  [.expect (text "cornhole") 1, .expect (text "hashtag") 2, .expect (text "[edison") 1,
    .log 3 (text "cornhole hashtag hexagon")]

/-- Matchers for three hashtags. -/
theorem syslog_matchers_hashtags :
    ∃ ms, runCalls literals [] hashtags = some ms ∧ MatchersMeet literals hashtags ms :=
  syslog_matchers literals hashtags (by
    simp only [hashtags, List.forall_mem_cons, Call.Fits]
    refine ⟨fun _ => by decide, fun _ => by decide, fun _ => by decide, trivial, ?_⟩
    exact fun _ h => absurd h List.not_mem_nil)

/-- Without a matcher there is no count of all tags. -/
theorem npSyslogCount_no_matchers :
    ¬ ∀ calls ms, runCalls literals [] calls = some ms → ∀ t : Int, t < 0 →
      npSyslogCount t ms = .ok (UInt32.ofNat (counted literals [] calls).length) := by
  intro h
  have hcount := h [] [] rfl (-1) (by decide)
  cases hcount

end NovaProva.Syslog
