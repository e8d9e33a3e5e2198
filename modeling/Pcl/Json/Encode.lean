import Pcl.Json.ParseString
import Pcl.Buf.Fit

/-!
# Encoding

`ipcl_json_encode_value` and its parts, which write into a text buffer, and `pcl_json_encode`. The
results of the puts are not looked at. `encodeText` is the text of a value, and `encodePuts` are the puts it is written
by: the encoder writes the one where the others fit an `int`, and has no defined result where they do not
(`encode_puts`).
-/

namespace Pcl

variable {R : Type}

/-- A put under a condition. -/
def putIf (c : Bool) (f : Buf UInt8 → ErrM (Buf UInt8)) (b : Buf UInt8) : ErrM (Buf UInt8) :=
  if c then f b else pure b

/-- `PRINT_TABS`. -/
def printTabs : Nat → Buf UInt8 → ErrM (Buf UInt8)
  | 0, b => pure b
  | n + 1, b => do
    let b ← BufOp.exec b (.putchar (ch '\t'))
    printTabs n b

/-- The letter of a one-letter escape. -/
def escapeLetter (c : UInt8) : Option UInt8 :=
  if c = ch '\\' then some (ch '\\')
  else if c = ch '/' then some (ch '/')
  else if c = ch '"' then some (ch '"')
  else if c = 0x08 then some (ch 'b')
  else if c = 0x09 then some (ch 't')
  else if c = 0x0a then some (ch 'n')
  else if c = 0x0c then some (ch 'f')
  else if c = 0x0d then some (ch 'r')
  else none

/-- `%04hhx`. -/
def hex4 (c : UInt8) : List UInt8 := txt "00" ++ (hex2 c).map ch

/-- A round of the loop of `ipcl_json_encode_string`. -/
def encodeChar (c : UInt8) (b : Buf UInt8) : ErrM (Buf UInt8) :=
  match escapeLetter c with
  | some x => BufOp.exec b (.putstr [ch '\\', x])
  | none =>
    -- control characters
    if c < 0x20 then BufOp.exec b (.putf (.ok (txt "\\u" ++ hex4 c))) else BufOp.exec b (.putchar c)

/-- The loop of `ipcl_json_encode_string`. -/
def encodeChars : List UInt8 → Buf UInt8 → ErrM (Buf UInt8)
  | [], b => pure b
  | c :: s, b => do
    let b ← encodeChar c b
    encodeChars s b

/-- `ipcl_json_encode_string`. -/
def ipclJsonEncodeString (s : CStr) (b : Buf UInt8) : ErrM (Buf UInt8) := do
  let b ← BufOp.exec b (.putchar (ch '"'))
  let b ← encodeChars s.bytes b
  BufOp.exec b (.putchar (ch '"'))

/-- What `ipcl_json_encode_array` and `ipcl_json_encode_object` do around their loop. -/
def encodeContainer (opening closing : UInt8) (format : Bool) (tabs count : Nat)
    (loop : Nat → Buf UInt8 → ErrM (Buf UInt8)) (b : Buf UInt8) : ErrM (Buf UInt8) := do
  let b ← BufOp.exec b (.putchar opening)
  let b ← putIf (format && count ≠ 0) (fun b => BufOp.exec b (.putchar (ch '\n'))) b
  let b ← loop (tabs + 1) b
  let b ← putIf (format && count ≠ 0) (printTabs tabs) b
  BufOp.exec b (.putchar closing)

/-- `ipcl_json_encode_array`. -/
def ipclJsonEncodeArray := encodeContainer (ch '[') (ch ']')

/-- `ipcl_json_encode_object`. -/
def ipclJsonEncodeObject := encodeContainer (ch '\x7b') (ch '\x7d')

/-- `%lld`. -/
def decimal (i : Int) : List UInt8 :=
  (if i < 0 then [ch '-'] else []) ++ (Nat.toDigits 10 i.natAbs).map ch

mutual

/-- `ipcl_json_encode_value`. -/
def ipclJsonEncodeValue (D : Doubles R) (format : Bool) : Json R → Nat → Buf UInt8 → ErrM (Buf UInt8)
  | .null, _, b => BufOp.exec b (.putstr (txt "null"))
  | .obj m, tabs, b =>
    ipclJsonEncodeObject format tabs m.length (fun tabs b => encodeMembers D format m tabs b) b
  | .arr l, tabs, b =>
    ipclJsonEncodeArray format tabs l.length (fun tabs b => encodeElements D format l tabs b) b
  | .bool v, _, b => BufOp.exec b (.putstr (if v then txt "true" else txt "false"))
  | .str s, _, b => ipclJsonEncodeString s b
  | .int i, _, b => BufOp.exec b (.putf (.ok (decimal i)))
  | .real r, _, b => if !D.isFinite r then BufOp.exec b (.putstr (txt "null")) else BufOp.exec b (.putf (.ok (D.format r)))

/-- The loop of `ipcl_json_encode_array`. -/
def encodeElements (D : Doubles R) (format : Bool) : List (Json R) → Nat → Buf UInt8 → ErrM (Buf UInt8)
  | [], _, b => pure b
  | v :: l, tabs, b => do
    let b ← putIf format (printTabs tabs) b
    let b ← ipclJsonEncodeValue D format v tabs b
    let b ← putIf (!l.isEmpty) (fun b => BufOp.exec b (.putchar (ch ','))) b
    let b ← putIf format (fun b => BufOp.exec b (.putchar (ch '\n'))) b
    encodeElements D format l tabs b

/-- The loop of `ipcl_json_encode_object`. -/
def encodeMembers (D : Doubles R) (format : Bool) : List (CStr × Json R) → Nat → Buf UInt8 → ErrM (Buf UInt8)
  | [], _, b => pure b
  | (k, v) :: m, tabs, b => do
    let b ← putIf format (printTabs tabs) b
    let b ← ipclJsonEncodeString k b
    let b ← BufOp.exec b (.putchar (ch ':'))
    let b ← putIf format (fun b => BufOp.exec b (.putchar (ch ' '))) b
    let b ← ipclJsonEncodeValue D format v tabs b
    let b ← putIf (!m.isEmpty) (fun b => BufOp.exec b (.putchar (ch ','))) b
    let b ← putIf format (fun b => BufOp.exec b (.putchar (ch '\n'))) b
    encodeMembers D format m tabs b

end

/-- `pcl_json_encode`. -/
def jsonEncode (D : Doubles R) (mem : Stale) (value : Json R) (format : Bool) : ErrM CStr := do
  let b ← ipclJsonEncodeValue D format value 0 (bufInit 256 .text)
  return blockStr mem b.data

/-! ### The text of a value -/

/-- A text under a condition. -/
def textIf (c : Bool) (s : List UInt8) : List UInt8 := if c then s else []

/-- Tabs. -/
def tabsText (n : Nat) : List UInt8 := List.replicate n (ch '\t')

/-- The text of a byte of a string. -/
def charText (c : UInt8) : List UInt8 :=
  match escapeLetter c with
  | some x => [ch '\\', x]
  | none => if c < 0x20 then txt "\\u" ++ hex4 c else [c]

/-- The text of a string. -/
def stringText (s : CStr) : List UInt8 := ch '"' :: (s.bytes.flatMap charText ++ [ch '"'])

/-- The text around the elements of a container. -/
def containerText (opening closing : UInt8) (format : Bool) (tabs count : Nat) (loop : List UInt8) : List UInt8 :=
  opening :: (textIf (format && count ≠ 0) [ch '\n'] ++ (loop ++ (textIf (format && count ≠ 0) (tabsText tabs) ++
    [closing])))

mutual

/-- The text of a value. -/
def encodeText (D : Doubles R) (format : Bool) : Json R → Nat → List UInt8
  | .null, _ => txt "null"
  | .obj m, tabs => containerText (ch '\x7b') (ch '\x7d') format tabs m.length (membersText D format m (tabs + 1))
  | .arr l, tabs => containerText (ch '[') (ch ']') format tabs l.length (elementsText D format l (tabs + 1))
  | .bool v, _ => if v then txt "true" else txt "false"
  | .str s, _ => stringText s
  | .int i, _ => decimal i
  | .real r, _ => if !D.isFinite r then txt "null" else D.format r

/-- The text of the elements of an array. -/
def elementsText (D : Doubles R) (format : Bool) : List (Json R) → Nat → List UInt8
  | [], _ => []
  | v :: l, tabs => textIf format (tabsText tabs) ++ (encodeText D format v tabs ++
    (textIf (!l.isEmpty) [ch ','] ++ (textIf format [ch '\n'] ++ elementsText D format l tabs)))

/-- The text of the members of an object. -/
def membersText (D : Doubles R) (format : Bool) : List (CStr × Json R) → Nat → List UInt8
  | [], _ => []
  | (k, v) :: m, tabs => textIf format (tabsText tabs) ++ (stringText k ++ ([ch ':'] ++ (textIf format [ch ' '] ++
    (encodeText D format v tabs ++ (textIf (!m.isEmpty) [ch ','] ++
      (textIf format [ch '\n'] ++ membersText D format m tabs))))))

end

/-! ### The puts of a value -/

/-- Puts under a condition. -/
def putsIf (c : Bool) (ps : List Put) : List Put := if c then ps else []

/-- The put of a formatted text. -/
def Put.text (s : List UInt8) : Put := ⟨s.length, s.length⟩

/-- The put of a byte of a string. -/
def charPut (c : UInt8) : Put :=
  match escapeLetter c with
  | some _ => .block 2
  | none => if c < 0x20 then .text (txt "\\u" ++ hex4 c) else .block 1

/-- The puts of a string. -/
def stringPuts (s : CStr) : List Put := .block 1 :: (s.bytes.map charPut ++ [.block 1])

/-- The puts around the elements of a container. -/
def containerPuts (format : Bool) (tabs count : Nat) (loop : List Put) : List Put :=
  .block 1 :: (putsIf (format && count ≠ 0) [.block 1] ++ (loop ++
    (putsIf (format && count ≠ 0) (List.replicate tabs (.block 1)) ++ [.block 1])))

mutual

/-- The puts of a value. -/
def encodePuts (D : Doubles R) (format : Bool) : Json R → Nat → List Put
  | .null, _ => [.block 4]
  | .obj m, tabs => containerPuts format tabs m.length (membersPuts D format m (tabs + 1))
  | .arr l, tabs => containerPuts format tabs l.length (elementsPuts D format l (tabs + 1))
  | .bool v, _ => [.block (if v then 4 else 5)]
  | .str s, _ => stringPuts s
  | .int i, _ => [.text (decimal i)]
  | .real r, _ => [if !D.isFinite r then .block 4 else .text (D.format r)]

/-- The puts of the elements of an array. -/
def elementsPuts (D : Doubles R) (format : Bool) : List (Json R) → Nat → List Put
  | [], _ => []
  | v :: l, tabs => putsIf format (List.replicate tabs (.block 1)) ++ (encodePuts D format v tabs ++
    (putsIf (!l.isEmpty) [.block 1] ++ (putsIf format [.block 1] ++ elementsPuts D format l tabs)))

/-- The puts of the members of an object. -/
def membersPuts (D : Doubles R) (format : Bool) : List (CStr × Json R) → Nat → List Put
  | [], _ => []
  | (k, v) :: m, tabs => putsIf format (List.replicate tabs (.block 1)) ++ (stringPuts k ++ ([.block 1] ++
    (putsIf format [.block 1] ++ (encodePuts D format v tabs ++ (putsIf (!m.isEmpty) [.block 1] ++
      (putsIf format [.block 1] ++ membersPuts D format m tabs))))))

end

/-- The text of a value is written without leaving `int`. -/
def EncodeFits (D : Doubles R) (format : Bool) (v : Json R) : Prop := Fill.Fits ⟨0, 256⟩ (encodePuts D format v 0)

instance (D : Doubles R) (format : Bool) (v : Json R) : Decidable (EncodeFits D format v) :=
  inferInstanceAs (Decidable (Fill.Fits _ _))

/-- `f` appends `s` to a terminated buffer by the puts `ps`. -/
structure Puts (f : Buf UInt8 → ErrM (Buf UInt8)) (ps : List Put) (s : List UInt8) : Prop where
  appends : ∀ {b bs} e, b.Holds bs true → b.mode = .text → Appends (f b) b bs ps s e
  total : Put.total ps = s.length
  room : ∀ p ∈ ps, p.room ≤ p.chars + 4

namespace Puts
variable {f g : Buf UInt8 → ErrM (Buf UInt8)} {s t : List UInt8} {ps qs : List Put} {p q : Put}

theorem nil : Puts (fun b => pure b) [] [] where
  appends e hb hm := .inl ⟨trivial, _, rfl, by rwa [List.append_nil], rfl, rfl⟩
  total := rfl
  room := List.forall_mem_nil _

theorem bind (hf : Puts f ps s) (hg : Puts g qs t) : Puts (fun b => f b >>= g) (ps ++ qs) (s ++ t) where
  appends := by
    intro b bs e hb hm
    rcases hf.appends e hb hm with ⟨hps, b₁, h₁, hb₁, hm₁, hfill₁⟩ | ⟨hps, h₁⟩
    · rcases hg.appends e hb₁ (hm₁.trans hm) with ⟨hqs, b₂, h₂, hb₂, hm₂, hfill₂⟩ | ⟨hqs, h₂⟩
      · rw [hfill₁] at hqs hfill₂
        rw [List.append_assoc] at hb₂
        refine .inl ⟨Fill.fits_append.2 ⟨hps, hqs⟩, b₂, ?_, hb₂, hm₂.trans hm₁, ?_⟩
        · rw [ErrM.bind_run, h₁, Option.bind_some, h₂]
        · rw [hfill₂, Fill.after_append]
      · rw [hfill₁] at hqs
        refine .inr ⟨fun hfits => hqs (Fill.fits_append.1 hfits).2, ?_⟩
        rw [ErrM.bind_run, h₁, Option.bind_some, h₂]
    · refine .inr ⟨fun hfits => hps (Fill.fits_append.1 hfits).1, ?_⟩
      rw [ErrM.bind_run, h₁, Option.bind_none]
  total := by
    have hps := hf.total
    have hqs := hg.total
    unfold Put.total at *
    rw [List.map_append, List.sum_append, hps, hqs, List.length_append]
  room p hp := (List.mem_append.1 hp).elim (hf.room p) (hg.room p)

theorem putchar (c : UInt8) : Puts (fun b => BufOp.exec b (.putchar c)) [.block 1] [c] where
  appends e hb _ := bufPutchar_appends hb c e
  total := rfl
  room := by simp [Put.block]

theorem putstr (hs : s ≠ []) : Puts (fun b => BufOp.exec b (.putstr s)) [.block s.length] s where
  appends e hb hm := bufPutstr_appends hb hm hs e
  total := rfl
  room := by simp [Put.block]

theorem putf (s : List UInt8) : Puts (fun b => BufOp.exec b (.putf (.ok s))) [.text s] s where
  appends e hb hm := bufPutf_appends hb hm s e
  total := rfl
  room := by simp [Put.text]

theorem ite {c : Prop} [Decidable c] (hf : c → Puts f ps s) (hg : ¬ c → Puts g qs t) :
    Puts (fun b => if c then f b else g b) (if c then ps else qs) (if c then s else t) := by
  by_cases hc : c
  · simp only [if_pos hc]
    exact hf hc
  · simp only [if_neg hc]
    exact hg hc

theorem ite_put {c : Prop} [Decidable c] (hf : c → Puts f [p] s) (hg : ¬ c → Puts g [q] t) :
    Puts (fun b => if c then f b else g b) [if c then p else q] (if c then s else t) := by
  by_cases hc : c
  · simp only [if_pos hc]
    exact hf hc
  · simp only [if_neg hc]
    exact hg hc

theorem putIf (c : Bool) (hf : Puts f ps s) : Puts (putIf c f) (putsIf c ps) (textIf c s) :=
  .ite (fun _ => hf) fun _ => nil

theorem tabs : ∀ n, Puts (printTabs n) (List.replicate n (.block 1)) (tabsText n)
  | 0 => nil
  | n + 1 => (putchar (ch '\t')).bind (tabs n)

theorem char (c : UInt8) : Puts (encodeChar c) [charPut c] (charText c) := by
  unfold encodeChar charPut charText
  cases escapeLetter c with
  | some x => exact putstr (List.cons_ne_nil _ _)
  | none => exact .ite_put (fun _ => putf _) fun _ => putchar c

theorem chars : ∀ s, Puts (encodeChars s) (s.map charPut) (s.flatMap charText)
  | [] => nil
  | c :: s => (char c).bind (chars s)

theorem string (s : CStr) : Puts (ipclJsonEncodeString s) (stringPuts s) (stringText s) :=
  (putchar (ch '"')).bind ((chars s.bytes).bind (putchar (ch '"')))

theorem container {opening closing : UInt8} {format : Bool} {n count : Nat}
    {loop : Nat → Buf UInt8 → ErrM (Buf UInt8)} (hloop : Puts (loop (n + 1)) ps s) :
    Puts (encodeContainer opening closing format n count loop) (containerPuts format n count ps)
      (containerText opening closing format n count s) :=
  (putchar opening).bind ((Puts.putIf _ (putchar (ch '\n'))).bind (hloop.bind
    ((Puts.putIf _ (tabs n)).bind (putchar closing))))

end Puts

/-- What the encoder writes is the text of the value, by the puts of the value. -/
theorem encode_puts (D : Doubles R) (format : Bool) (v : Json R) :
    ∀ n, Puts (ipclJsonEncodeValue D format v n) (encodePuts D format v n) (encodeText D format v n) := by
  induction v using Json.ind with
  | null => exact fun n => .putstr (by decide)
  | bool v =>
    intro n
    cases v with
    | true => exact .putstr (s := txt "true") (by decide)
    | false => exact .putstr (s := txt "false") (by decide)
  | int i => exact fun n => .putf _
  | real r => exact fun n => .ite_put (fun _ => .putstr (by decide)) fun _ => .putf _
  | str s => exact fun n => .string s
  | arr l ih =>
    have hloop : ∀ n, Puts (encodeElements D format l n) (elementsPuts D format l n) (elementsText D format l n) := by
      induction l with
      | nil => exact fun n => .nil
      | cons v l ihl =>
        intro n
        have hl := ihl fun w hw => ih w (List.mem_cons_of_mem v hw)
        exact (Puts.putIf _ (.tabs n)).bind ((ih v List.mem_cons_self n).bind ((Puts.putIf _ (.putchar _)).bind
          ((Puts.putIf _ (.putchar _)).bind (hl n))))
    exact fun n => .container (hloop (n + 1))
  | obj m ih =>
    have hloop : ∀ n, Puts (encodeMembers D format m n) (membersPuts D format m n) (membersText D format m n) := by
      induction m with
      | nil => exact fun n => .nil
      | cons p m ihm =>
        intro n
        obtain ⟨k, v⟩ := p
        have hm := ihm fun q hq => ih q (List.mem_cons_of_mem _ hq)
        exact (Puts.putIf _ (.tabs n)).bind ((Puts.string k).bind ((Puts.putchar _).bind
          ((Puts.putIf _ (.putchar _)).bind ((ih _ List.mem_cons_self n).bind ((Puts.putIf _ (.putchar _)).bind
            ((Puts.putIf _ (.putchar _)).bind (hm n)))))))
    exact fun n => .container (hloop (n + 1))

/-- Texts below 2 ^ 29 bytes fit. -/
theorem encodeFits_small {D : Doubles R} {format : Bool} {v : Json R} (h : (encodeText D format v 0).length < 2 ^ 29) :
    EncodeFits D format v := by
  have hputs := encode_puts D format v 0
  refine Fill.fits_small hputs.room (Nat.le_max_left _ _) ?_
  rw [hputs.total]
  show 0 + _ < 2 ^ 29
  omega

/-- Texts of 2 ^ 31 bytes or more do not fit. -/
theorem encodeFits_length {D : Doubles R} {format : Bool} {v : Json R} (h : EncodeFits D format v) :
    (encodeText D format v 0).length < 2 ^ 31 := by
  have htotal := (encode_puts D format v 0).total
  rcases Fill.Fits.total_lt h with hnil | hlt
  · rw [hnil] at htotal
    rw [← htotal]
    decide
  · omega

end Pcl
