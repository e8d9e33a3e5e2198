import Pcl.Buf.Get
import Pcl.Str.Strtol

/-!
# Runs of buffer operations

A buffer from `pcl_buf_init`, then any puts, gets, resets and rewinds of the position. The `int`
arithmetic of each operation is listed beside it (`ints`): the operation is undefined where a value
leaves `int`, as it is where it stores or reads outside the block. `Sound` is the invariant of such a
run while fewer than 2^29 characters were written.
-/

namespace Pcl
variable {χ : Type}

/-- The value is one of `int`. -/
def InInt (x : Int) : Prop := intMin ≤ x ∧ x ≤ intMax

instance (x : Int) : Decidable (InInt x) := inferInstanceAs (Decidable (_ ∧ _))

/-- `pcl_buf_reset`. -/
def bufReset [Zero χ] (b : Buf χ) : ErrM (Buf χ) :=
  if b.data = [] then pure { b with pos := 0, len := 0 }
  else
    match storeAt b.data 0 [0] with
    | none => ErrM.undef
    | some block => pure { b with pos := 0, len := 0, data := block }

/-- `pcl_buf_vputf` with what the format query gave: the formatted text, or an error code. -/
def bufVputf [Zero χ] (b : Buf χ) : Except Int (List χ) → ErrM (Int × Buf χ)
  | .error err => do
    let r ← setErr (loc "buf_vputf.c" "pcl_buf_vputf" 48) err
    return (r, b)
  | .ok s => bufPutf b s

/-- The operations of a run; `s` is a text that was formatted, or the error of it. -/
inductive BufOp (χ : Type) where
  | put (data : List χ)
  | putstr (s : List χ)
  | putchar (c : χ)
  | putint8 (i : UInt8)
  | putint16 (i : UInt16)
  | putint32 (i : UInt32)
  | putint64 (i : UInt64)
  | putf (s : Except Int (List χ))
  | get (buf : List χ) (len : Nat)
  | getstr (buf : List χ) (len : Nat)
  | reset

variable [BufChar χ]

/-- The values of type `int` in `pcl_buf_grow`. -/
def growInts (b : Buf χ) (len : Nat) : List Int :=
  let avail : Int := b.size - b.pos
  [(b.size : Int), avail] ++ if len ≥ avail then [len - avail] else []

/-- Those of `pcl_buf_put`. -/
def putInts (b : Buf χ) (len : Nat) : List Int :=
  let chrsize := BufChar.chrsize χ
  if len = 0 then [0]
  else [(len : Int), (len : Int) + 1] ++ growInts b (len + 1) ++
    [(b.pos : Int) * chrsize, (len : Int) * chrsize, (b.pos : Int) + len, ((b.pos : Int) + len) * chrsize]

/-- Those of `pcl_buf_get`. -/
def getInts (b : Buf χ) (len : Int) : List Int :=
  let chrsize := BufChar.chrsize χ
  [(b.len : Int) - b.pos] ++
    if b.mode ≠ .binary ∨ len > (b.len : Int) - b.pos then [] else [(b.pos : Int) * chrsize, len * chrsize, b.pos + len]

/-- Those of a put of an integer. -/
def putintInts (b : Buf χ) (n : Nat) : List Int := if b.mode = .binary then putInts b n else []

/-- Those of `pcl_buf_putstr`. -/
def putstrInts (b : Buf χ) (s : List χ) : List Int :=
  [(s.length : Int)] ++ putInts b (Buf.Repr.strChars b.mode s).length

/-- Those of `pcl_buf_vputf`. -/
def vputfInts (b : Buf χ) : Except Int (List χ) → List Int
  | .error err => [err, -err]
  | .ok s =>
    let n := (Buf.Repr.strChars b.mode s).length
    [(s.length : Int), (n : Int)] ++ growInts b n ++
      [(b.pos : Int) + s.length, (b.pos : Int) + n, ((b.pos : Int) + n) * BufChar.chrsize χ]

/-- The invariant of a run that started with `size` characters and wrote `n`. -/
structure Buf.Sound (size : Nat) (mode : BufMode) (n : Nat) (b : Buf χ) : Prop where
  holds : ∃ text, b.Repr text true
  mode_eq : b.mode = mode
  len_le : b.len ≤ n
  size_le : b.size ≤ max size (2 * (n + 1))

variable {size n : Nat} {mode : BufMode} {b b' : Buf χ}

namespace Buf.Sound

theorem init (hsize : 0 < size) : (bufInit size mode : Buf χ).Sound size mode 0 :=
  ⟨⟨[], .init hsize mode⟩, rfl, Nat.le_refl _, Nat.le_max_left _ _⟩

theorem seek (h : b.Sound size mode n) {p : Nat} (hp : p ≤ b.len) : Sound size mode n { b with pos := p } := by
  obtain ⟨text, hr⟩ := h.holds
  rw [hr.len_eq] at hp
  exact ⟨⟨text, hr.seek hp⟩, h.mode_eq, h.len_le, h.size_le⟩

theorem wrote (h : b.Sound size mode n) {text s : List χ} (hr : b.Repr text true) (hw : Buf.Repr.Wrote b b' text s) :
    b'.Sound size mode (n + s.length) := by
  have hlen := hw.repr.len_eq
  rw [overwrite_length hr.pos_le, ← hr.len_eq] at hlen
  have hpos := hr.pos_le
  rw [← hr.len_eq] at hpos
  have hle := h.len_le
  have hsize := h.size_le
  have hgrown := hw.size_le
  exact ⟨⟨_, hw.repr⟩, hw.mode_eq.trans h.mode_eq, by omega, by omega⟩

/-- The bounds that keep the arithmetic of the next operation inside `int`. -/
theorem bounds (h : b.Sound size mode n) (hsmall : size < 2 ^ 29) (hn : n < 2 ^ 29) :
    b.pos ≤ b.len ∧ b.len ≤ n ∧ b.len < b.size ∧ b.size ≤ 2 ^ 30 := by
  obtain ⟨text, hr⟩ := h.holds
  have hpos := hr.pos_le
  have hlt := hr.lt_size
  rw [← hr.len_eq] at hpos hlt
  have hsize := h.size_le
  exact ⟨hpos, h.len_le, hlt, by omega⟩

end Buf.Sound

theorem mul_chrsize {m : Nat} (hm : m < 2 ^ 29) : InInt ((m : Int) * BufChar.chrsize χ) := by
  have hle : m * BufChar.chrsize χ ≤ m * 4 := Nat.mul_le_mul_left m (BufChar.chrsize_le)
  have hcast : (m : Int) * BufChar.chrsize χ = ((m * BufChar.chrsize χ : Nat) : Int) := by simp
  unfold InInt intMin intMax
  omega

theorem growInts_ok (h : b.Sound size mode n) (hsmall : size < 2 ^ 29) (hn : n < 2 ^ 29) {k : Nat} (hk : k ≤ 2 ^ 29) :
    ∀ x ∈ growInts b k, InInt x := by
  obtain ⟨hpos, hlen, hlt, hsize⟩ := h.bounds hsmall hn
  intro x hx
  unfold growInts at hx
  simp only [List.cons_append, List.nil_append, List.mem_cons] at hx
  unfold InInt intMin intMax
  rcases hx with rfl | rfl | hx
  · omega
  · omega
  · split at hx
    · rw [List.mem_singleton] at hx
      omega
    · exact absurd hx List.not_mem_nil

theorem inInt_of_le {x : Int} (h₀ : 0 ≤ x) (h : x ≤ 2 ^ 30) : InInt x := by
  unfold InInt intMin intMax
  omega

theorem putInts_ok (h : b.Sound size mode n) (hsmall : size < 2 ^ 29) {k : Nat} (hn : n + k < 2 ^ 29) :
    ∀ x ∈ putInts b k, InInt x := by
  have hn' : n < 2 ^ 29 := by omega
  obtain ⟨hpos, hlen, hlt, hsize⟩ := h.bounds hsmall hn'
  have hmul₁ : InInt ((b.pos : Int) * BufChar.chrsize χ) := mul_chrsize (by omega)
  have hmul₂ : InInt ((k : Int) * BufChar.chrsize χ) := mul_chrsize (by omega)
  have hmul₃ : InInt (((b.pos + k : Nat) : Int) * BufChar.chrsize χ) := mul_chrsize (by omega)
  rw [Int.natCast_add] at hmul₃
  unfold putInts
  split
  · simp only [List.forall_mem_cons, List.not_mem_nil, false_implies, implies_true, and_true]
    exact inInt_of_le (by omega) (by omega)
  · simp only [List.forall_mem_append, List.forall_mem_cons, List.not_mem_nil, false_implies, implies_true, and_true]
    exact ⟨⟨⟨inInt_of_le (by omega) (by omega), inInt_of_le (by omega) (by omega)⟩,
      growInts_ok h hsmall hn' (by omega)⟩, hmul₁, hmul₂, inInt_of_le (by omega) (by omega), hmul₃⟩

theorem vputfInts_ok (h : b.Sound size mode n) (hsmall : size < 2 ^ 29) {s : List χ}
    (hn : n + (Buf.Repr.strChars mode s).length < 2 ^ 29) : ∀ x ∈ vputfInts b (.ok s), InInt x := by
  have hn' : n < 2 ^ 29 := by omega
  obtain ⟨hpos, hlen, hlt, hsize⟩ := h.bounds hsmall hn'
  have hle : s.length ≤ (Buf.Repr.strChars mode s).length := by
    rw [Buf.Repr.strChars_length]
    split <;> omega
  have hmul : InInt (((b.pos + (Buf.Repr.strChars mode s).length : Nat) : Int) * BufChar.chrsize χ) :=
    mul_chrsize (by omega)
  rw [Int.natCast_add] at hmul
  unfold vputfInts
  rw [h.mode_eq]
  simp only [List.forall_mem_append, List.forall_mem_cons, List.not_mem_nil, false_implies, implies_true, and_true]
  exact ⟨⟨⟨inInt_of_le (by omega) (by omega), inInt_of_le (by omega) (by omega)⟩, growInts_ok h hsmall hn' (by omega)⟩,
    inInt_of_le (by omega) (by omega), inInt_of_le (by omega) (by omega), hmul⟩

theorem getInts_ok (h : b.Sound size mode n) (hsmall : size < 2 ^ 29) (hn : n < 2 ^ 29) (len : Nat) :
    ∀ x ∈ getInts b len, InInt x := by
  obtain ⟨hpos, hlen, hlt, hsize⟩ := h.bounds hsmall hn
  unfold getInts
  simp only [List.forall_mem_append, List.forall_mem_cons, List.not_mem_nil, false_implies, implies_true, and_true]
  refine ⟨inInt_of_le (by omega) (by omega), ?_⟩
  split
  · exact fun x hx => absurd hx List.not_mem_nil
  · rename_i hread
    rw [not_or] at hread
    have hmul₁ : InInt ((b.pos : Int) * BufChar.chrsize χ) := mul_chrsize (by omega)
    have hmul₂ : InInt ((len : Int) * BufChar.chrsize χ) := mul_chrsize (by omega)
    simp only [List.forall_mem_cons, List.not_mem_nil, false_implies, implies_true, and_true]
    exact ⟨hmul₁, hmul₂, inInt_of_le (by omega) (by omega)⟩

/-- A get of at most the size of its output buffer reads or fails. -/
theorem bufGet_sound (h : b.Sound size mode n) {buf : List χ} {len : Nat} (hbuf : len ≤ buf.length) (e : ErrState) :
    ∃ r buf' b' e', bufGet b buf len e = some ((r, buf', b'), e') ∧ b'.Sound size mode n := by
  obtain ⟨text, hr⟩ := h.holds
  have hpos := hr.pos_le
  by_cases hmode : b.mode = .binary
  · by_cases hread : len ≤ text.length - b.pos
    · have htext : text = text.take b.pos ++ ((text.drop b.pos).take len ++ (text.drop b.pos).drop len) := by
        rw [List.take_append_drop, List.take_append_drop]
      have hlen : ((text.drop b.pos).take len).length = len := by
        rw [List.length_take, List.length_drop]
        omega
      have hstart : b.pos = (text.take b.pos).length := by
        rw [List.length_take]
        omega
      have hget := (htext ▸ hr).get hmode hstart (hlen.symm ▸ hbuf) e
      rw [hlen] at hget
      exact ⟨_, _, _, e, hget, h.seek (by rw [hr.len_eq]; omega)⟩
    · have heof : (len : Int) > (b.len : Int) - b.pos := by
        rw [hr.len_eq]
        omega
      have hrun : bufGet b buf len e = some ((if e.frozen then 0 else -1, buf, b),
          e.raised (loc "buf_get.c" "pcl_buf_get" 43) eEof 0 none) := by
        unfold bufGet
        rw [if_neg (by rw [hmode]; simp), if_pos heof, ErrM.bind_run, setErr_run _ _ _ (by decide)]
        rfl
      exact ⟨_, _, _, _, hrun, h⟩
  · have hrun : bufGet b buf len e = some ((if e.frozen then 0 else -1, buf, b),
        e.raised (loc "buf_get.c" "pcl_buf_get" 39) eInval 0 none) := by
      unfold bufGet
      rw [if_pos hmode, ErrM.bind_run, setErr_run _ _ _ (by decide)]
      rfl
    exact ⟨_, _, _, _, hrun, h⟩

theorem refused_sound (h : b.Sound size mode n) (x : ErrM Int) (hx : ∃ r e', x e = some (r, e')) :
    ∃ r b' e', (do let r ← x; return (r, b) : ErrM (Int × Buf χ)) e = some ((r, b'), e') ∧ b'.Sound size mode (n + 0) := by
  obtain ⟨r, e', hx⟩ := hx
  refine ⟨r, b, e', ?_, h⟩
  rw [ErrM.bind_run, hx]
  rfl

theorem bufPut_sound (h : b.Sound size mode n) {s : List χ} (hs : s ≠ []) (e : ErrState) :
    ∃ r b' e', bufPut b s e = some ((r, b'), e') ∧ b'.Sound size mode (n + s.length) := by
  obtain ⟨text, hr⟩ := h.holds
  obtain ⟨b', hrun, hw⟩ := hr.put hs (.inl rfl) e
  exact ⟨_, b', e, hrun, h.wrote hr hw⟩

theorem putint_sound (h : b.Sound size mode n) (l : Loc) {k : Nat} (hk : 0 < k) (i : Nat) (e : ErrState) :
    ∃ r b' e', putint l k b i e = some ((r, b'), e') ∧ b'.Sound size mode (n + if mode = .binary then k else 0) := by
  unfold putint
  rw [h.mode_eq]
  by_cases hmode : mode = .binary
  · have hlen : ((leBytes k (swap k i)).map (BufChar.ofByte : UInt8 → χ)).length = k := by
      rw [List.length_map, leBytes_length]
    have hne : (leBytes k (swap k i)).map (BufChar.ofByte : UInt8 → χ) ≠ [] := by
      intro h0
      rw [h0] at hlen
      exact absurd hlen (by simp; omega)
    have hput := bufPut_sound h hne e
    rw [hlen] at hput
    rw [if_neg (not_not_intro hmode), if_pos hmode]
    exact hput
  · rw [if_pos hmode, if_neg hmode]
    exact refused_sound h _ ⟨_, _, badArg_run e l⟩

theorem bufPutstr_sound (h : b.Sound size mode n) (s : List χ) (e : ErrState) :
    ∃ r b' e', bufPutstr b s e = some ((r, b'), e') ∧ b'.Sound size mode (n + (Buf.Repr.strChars mode s).length) := by
  have hchars : bufPutstr b s = bufPut b (Buf.Repr.strChars mode s) := by
    unfold bufPutstr
    rw [h.mode_eq]
    rfl
  rw [hchars]
  by_cases hs : Buf.Repr.strChars mode s = []
  · -- an empty text is refused
    rw [hs]
    exact refused_sound h _ ⟨_, _, badArg_run e _⟩
  · exact bufPut_sound h hs e

theorem bufPutint8_sound (h : b.Sound size mode n) (i : UInt8) (e : ErrState) :
    ∃ r b' e', bufPutint8 b i e = some ((r, b'), e') ∧ b'.Sound size mode (n + if mode = .binary then 1 else 0) := by
  unfold bufPutint8
  rw [h.mode_eq]
  by_cases hmode : mode = .binary
  · rw [if_pos hmode, if_pos hmode]
    exact bufPut_sound h (List.cons_ne_nil _ []) e
  · rw [if_neg hmode, if_neg hmode]
    exact refused_sound h _ ⟨_, _, badArg_run e _⟩

theorem bufReset_sound (h : b.Sound size mode n) (e : ErrState) :
    ∃ b' e', bufReset b e = some (b', e') ∧ b'.Sound size mode n := by
  obtain ⟨text, hr⟩ := h.holds
  have hlt := hr.lt_size
  have hlen : 0 + [(0 : χ)].length ≤ b.data.length := by
    rw [hr.size_eq]
    show 0 + 1 ≤ b.size
    omega
  have hne : b.data ≠ [] := by
    intro h0
    rw [h0] at hlen
    exact absurd hlen (by simp)
  obtain ⟨c, tail, hdata⟩ := List.exists_cons_of_ne_nil hne
  have hstore : storeAt b.data 0 [0] = some (some 0 :: tail) := by
    unfold storeAt
    rw [if_pos hlen, hdata]
    rfl
  refine ⟨{ b with pos := 0, len := 0, data := some 0 :: tail }, e, ?_, ⟨[], Nat.le_refl 0, rfl, ?_, tail, rfl⟩,
    h.mode_eq, Nat.zero_le _, h.size_le⟩
  · unfold bufReset
    rw [if_neg hne, hstore]
    rfl
  · rw [← hr.size_eq, hdata]
    rfl

/-! ### Runs -/

variable [DecidableEq χ]

/-- Those of `pcl_buf_getstr`. -/
def getstrInts (b : Buf χ) (len : Int) : List Int :=
  match strlenIn (b.data.drop b.pos) with
  | none => []
  | some m => [(m : Int) + 1] ++ if (m : Int) + 1 > len then [] else getInts b (m + 1)

namespace BufOp

def ints (b : Buf χ) : BufOp χ → List Int
  | .put data => putInts b data.length
  | .putstr s => putstrInts b s
  | .putchar _ => putInts b 1
  | .putint8 _ => putintInts b 1
  | .putint16 _ => putintInts b 2
  | .putint32 _ => putintInts b 4
  | .putint64 _ => putintInts b 8
  | .putf s => vputfInts b s
  | .get _ len => getInts b len
  | .getstr _ len => getstrInts b len
  | .reset => []

def run (b : Buf χ) : BufOp χ → ErrM (Buf χ)
  | .put data => do
    let (_, b) ← bufPut b data
    return b
  | .putstr s => do
    let (_, b) ← bufPutstr b s
    return b
  | .putchar c => do
    let (_, b) ← bufPutchar b c
    return b
  | .putint8 i => do
    let (_, b) ← bufPutint8 b i
    return b
  | .putint16 i => do
    let (_, b) ← bufPutint16 b i
    return b
  | .putint32 i => do
    let (_, b) ← bufPutint32 b i
    return b
  | .putint64 i => do
    let (_, b) ← bufPutint64 b i
    return b
  | .putf s => do
    let (_, b) ← bufVputf b s
    return b
  | .get buf len => do
    let (_, _, b) ← bufGet b buf len
    return b
  | .getstr buf len => do
    let (_, _, b) ← bufGetstr b buf len
    return b
  | .reset => bufReset b

/-- The operation with its `int` arithmetic. -/
def exec (b : Buf χ) (op : BufOp χ) : ErrM (Buf χ) := if ∀ x ∈ op.ints b, InInt x then op.run b else ErrM.undef

/-- The number of characters the operation writes, without the NUL that is always put behind them. -/
def chars (mode : BufMode) : BufOp χ → Nat
  | .put data => data.length
  | .putstr s => (Buf.Repr.strChars mode s).length
  | .putchar _ => 1
  | .putint8 _ => if mode = .binary then 1 else 0
  | .putint16 _ => if mode = .binary then 2 else 0
  | .putint32 _ => if mode = .binary then 4 else 0
  | .putint64 _ => if mode = .binary then 8 else 0
  | .putf (.ok s) => (Buf.Repr.strChars mode s).length
  | .putf (.error _) | .get _ _ | .getstr _ _ | .reset => 0

/-- A put writes something, a C string holds no NUL, an output buffer is as large as the call says, an error
code is an `int`. -/
def Legal : BufOp χ → Prop
  | .put data => data ≠ []
  | .putstr s => 0 ∉ s
  | .get buf len | .getstr buf len => len ≤ buf.length
  | .putf (.error err) => 0 < err ∧ InInt err
  | _ => True

end BufOp

/-- The buffers that a run of operations on a new buffer reaches, with the number of characters it wrote. -/
inductive BufReach (size : Nat) (mode : BufMode) : Nat → Buf χ → Prop
  | init : BufReach size mode 0 (bufInit size mode)
  | op {n : Nat} {b b' : Buf χ} {e e' : ErrState} {op : BufOp χ} (h : BufReach size mode n b) (hl : op.Legal)
    (hrun : op.exec b e = some (b', e')) : BufReach size mode (n + op.chars mode) b'
  | rewind {n p : Nat} {b : Buf χ} (h : BufReach size mode n b) (hp : p ≤ b.len) :
    BufReach size mode n { b with pos := p }

variable {e e' : ErrState} {op : BufOp χ}

/-- A string in the buffer ends at its NUL at the latest. -/
theorem strlenIn_le (text : List χ) (rest : List (Option χ)) :
    ∃ m, strlenIn (text.map some ++ some 0 :: rest) = some m ∧ m ≤ text.length := by
  induction text with
  | nil => exact ⟨0, if_pos rfl, Nat.le_refl _⟩
  | cons c text ih =>
    obtain ⟨m, hm, hle⟩ := ih
    by_cases hc : c = 0
    · exact ⟨0, if_pos hc, Nat.zero_le _⟩
    · refine ⟨m + 1, ?_, Nat.succ_le_succ hle⟩
      rw [List.map_cons, List.cons_append, strlenIn, if_neg hc, hm]
      rfl

/-- What `strlen` finds behind the position. -/
theorem strlenIn_sound (h : b.Sound size mode n) : ∃ m, strlenIn (b.data.drop b.pos) = some m ∧ m ≤ b.len - b.pos := by
  obtain ⟨text, hr⟩ := h.holds
  obtain ⟨rest, hdata⟩ := hr.data_eq
  have hpos := hr.pos_le
  have hdrop : b.data.drop b.pos = (text.drop b.pos).map some ++ some 0 :: rest := by
    rw [hdata, List.drop_append_of_le_length (by rw [List.length_map]; exact hpos), List.map_drop]
    rfl
  obtain ⟨m, hm, hle⟩ := strlenIn_le (text.drop b.pos) rest
  rw [List.length_drop, ← hr.len_eq] at hle
  exact ⟨m, by rw [hdrop, hm], hle⟩

theorem getstrInts_ok (h : b.Sound size mode n) (hsmall : size < 2 ^ 29) (hn : n < 2 ^ 29) (len : Nat) :
    ∀ x ∈ getstrInts b len, InInt x := by
  obtain ⟨m, hm, hle⟩ := strlenIn_sound h
  obtain ⟨hpos, hlen, -⟩ := h.bounds hsmall hn
  have hget := getInts_ok h hsmall hn (m + 1)
  unfold getstrInts
  rw [hm]
  refine List.forall_mem_cons.2 ⟨inInt_of_le (by omega) (by omega), ?_⟩
  split
  · exact fun x hx => absurd hx List.not_mem_nil
  · exact hget

theorem bufGetstr_sound (h : b.Sound size mode n) {buf : List χ} {len : Nat} (hbuf : len ≤ buf.length) (e : ErrState) :
    ∃ r buf' b' e', bufGetstr b buf len e = some ((r, buf', b'), e') ∧ b'.Sound size mode n := by
  by_cases hmode : b.mode = .binary
  · obtain ⟨m, hm, -⟩ := strlenIn_sound h
    by_cases hroom : (m : Int) + 1 > len
    · have hrun : bufGetstr b buf len e = some ((if e.frozen then 0 else -1, buf, b),
          e.raised (loc "buf_getstr.c" "pcl_buf_getstr" 44) eBuf 0 none) := by
        unfold bufGetstr
        rw [if_neg (not_not_intro hmode), hm]
        simp only
        rw [if_pos hroom, ErrM.bind_run, setErr_run _ _ _ (by decide)]
        rfl
      exact ⟨_, _, _, _, hrun, h⟩
    · obtain ⟨r, buf', b', e', hget, hs⟩ := bufGet_sound h (by omega : m + 1 ≤ buf.length) e
      refine ⟨r, buf', b', e', ?_, hs⟩
      unfold bufGetstr
      rw [if_neg (not_not_intro hmode), hm]
      simp only
      rw [if_neg hroom]
      exact hget
  · have hrun : bufGetstr b buf len e = some ((if e.frozen then 0 else -1, buf, b),
        e.raised (loc "buf_getstr.c" "pcl_buf_getstr" 39) eInval 0 none) := by
      unfold bufGetstr
      rw [if_pos hmode, ErrM.bind_run, badArg_run]
      rfl
    exact ⟨_, _, _, _, hrun, h⟩

/-- A step: no operation leaves `int` or the block, and the invariant goes on. -/
theorem BufOp.exec_sound (h : b.Sound size mode n) (hsmall : size < 2 ^ 29) (hl : op.Legal)
    (hn : n + op.chars mode < 2 ^ 29) (e : ErrState) :
    ∃ b' e', op.exec b e = some (b', e') ∧ b'.Sound size mode (n + op.chars mode) := by
  suffices hs : (∀ x ∈ op.ints b, InInt x) ∧ ∃ b' e', op.run b e = some (b', e') ∧ b'.Sound size mode (n + op.chars mode) by
    obtain ⟨hints, b', e', hrun, hs⟩ := hs
    exact ⟨b', e', by rw [exec, if_pos hints, hrun], hs⟩
  -- the buffer of a put, without the number it returns
  have hput {x : ErrM (Int × Buf χ)} {k : Nat} (hx : ∃ r b' e', x e = some ((r, b'), e') ∧ b'.Sound size mode k) :
      ∃ b' e', (do let (_, b) ← x; return b : ErrM (Buf χ)) e = some (b', e') ∧ b'.Sound size mode k := by
    obtain ⟨r, b', e', hx, hs⟩ := hx
    exact ⟨b', e', by rw [ErrM.bind_run, hx]; rfl, hs⟩
  have hget {x : ErrM (Int × List χ × Buf χ)} {k : Nat}
      (hx : ∃ r buf b' e', x e = some ((r, buf, b'), e') ∧ b'.Sound size mode k) :
      ∃ b' e', (do let (_, _, b) ← x; return b : ErrM (Buf χ)) e = some (b', e') ∧ b'.Sound size mode k := by
    obtain ⟨r, buf, b', e', hx, hs⟩ := hx
    exact ⟨b', e', by rw [ErrM.bind_run, hx]; rfl, hs⟩
  have hintInts (k : Nat) (hk : n + (if mode = .binary then k else 0) < 2 ^ 29) : ∀ x ∈ putintInts b k, InInt x := by
    unfold putintInts
    rw [h.mode_eq]
    split
    · rename_i hmode
      rw [if_pos hmode] at hk
      exact putInts_ok h hsmall hk
    · exact fun x hx => absurd hx List.not_mem_nil
  cases op with
  | put data => exact ⟨putInts_ok h hsmall hn, hput (bufPut_sound h hl e)⟩
  | putstr s =>
    have hlen : InInt (s.length : Int) := by
      have hle := Buf.Repr.strChars_length mode s
      have hn' : n + (Buf.Repr.strChars mode s).length < 2 ^ 29 := hn
      split at hle <;> exact inInt_of_le (by omega) (by omega)
    refine ⟨?_, ?_⟩
    · show ∀ x ∈ putstrInts b s, InInt x
      unfold putstrInts
      rw [h.mode_eq]
      exact List.forall_mem_cons.2 ⟨hlen, putInts_ok h hsmall hn⟩
    · exact hput (bufPutstr_sound h s e)
  | putchar c => exact ⟨putInts_ok h hsmall hn, hput (bufPut_sound h (List.cons_ne_nil c []) e)⟩
  | putint8 i => exact ⟨hintInts 1 hn, hput (bufPutint8_sound h i e)⟩
  | putint16 i => exact ⟨hintInts 2 hn, hput (putint_sound h _ (by decide) _ e)⟩
  | putint32 i => exact ⟨hintInts 4 hn, hput (putint_sound h _ (by decide) _ e)⟩
  | putint64 i => exact ⟨hintInts 8 hn, hput (putint_sound h _ (by decide) _ e)⟩
  | putf s =>
    cases s with
    | error err =>
      obtain ⟨hpos, hmin, hmax⟩ := hl
      refine ⟨?_, hput (refused_sound h _ ⟨_, _, setErr_run e _ err (Int.ne_of_gt hpos)⟩)⟩
      show ∀ x ∈ [err, -err], InInt x
      simp only [List.forall_mem_cons, List.not_mem_nil, false_implies, implies_true, and_true]
      refine ⟨⟨hmin, hmax⟩, ?_, ?_⟩
      · unfold intMin
        unfold intMax at hmax
        omega
      · unfold intMax
        omega
    | ok s =>
      refine ⟨vputfInts_ok h hsmall hn, hput ?_⟩
      obtain ⟨text, hr⟩ := h.holds
      obtain ⟨b', hrun, hw⟩ := hr.putf e
      rw [h.mode_eq] at hw
      exact ⟨_, b', e, hrun, h.wrote hr hw⟩
  | get buf len => exact ⟨getInts_ok h hsmall hn len, hget (bufGet_sound h hl e)⟩
  | getstr buf len => exact ⟨getstrInts_ok h hsmall hn len, hget (bufGetstr_sound h hl e)⟩
  | reset => exact ⟨fun x hx => absurd hx List.not_mem_nil, bufReset_sound h e⟩

/-- Whatever a buffer goes through, the position is inside the text, the text and its NUL inside the block, and
no operation that may follow leaves the block. -/
theorem bufReach_sound (hsize : 0 < size) (hsmall : size < 2 ^ 29) (h : BufReach size mode n b) (hn : n < 2 ^ 29) :
    b.pos ≤ b.len ∧ b.len < b.size ∧ b.data.length = b.size ∧ b.data[b.len]? = some (some 0) ∧
      ∀ op : BufOp χ, op.Legal → n + op.chars mode < 2 ^ 29 → ∀ e, ∃ b' e', op.exec b e = some (b', e') := by
  have hsound : b.Sound size mode n := by
    induction h with
    | init => exact .init hsize
    | @op m b b' e e' op h hl hrun ih =>
      obtain ⟨b₁, e₁, hrun₁, hs⟩ := BufOp.exec_sound (ih (by omega)) hsmall hl hn e
      rw [hrun] at hrun₁
      cases hrun₁
      exact hs
    | rewind h hp ih => exact (ih hn).seek hp
  obtain ⟨text, hr⟩ := hsound.holds
  obtain ⟨hpos, -, hlt, -⟩ := hsound.bounds hsmall hn
  refine ⟨hpos, hlt, hr.size_eq, hr.nul, fun op hl hop e => ?_⟩
  obtain ⟨b', e', hrun, -⟩ := BufOp.exec_sound hsound hsmall hl hop e
  exact ⟨b', e', hrun⟩

/-- A string in a buffer that has to grow for it, and the position set back into it. -/
theorem bufReach_sound_hello : 2 ≤ 5 ∧ 5 < 12 ∧ ((txt "Hello").map some ++ some 0 :: List.replicate 6 none).length = 12 ∧
    ((txt "Hello").map some ++ some 0 :: List.replicate 6 none)[5]? = some (some 0) ∧
    ∀ op : BufOp UInt8, op.Legal → 5 + op.chars .text < 2 ^ 29 → ∀ e, ∃ b' e',
      op.exec ⟨.text, 2, 5, 12, (txt "Hello").map some ++ some 0 :: List.replicate 6 none⟩ e = some (b', e') := by
  have hrun : (BufOp.putstr (txt "Hello")).exec (bufInit 4 .text) .zero =
      some (⟨.text, 5, 5, 12, (txt "Hello").map some ++ some 0 :: List.replicate 6 none⟩, .zero) := by
    rw [BufOp.exec, if_pos (by decide)]
    rfl
  have hlegal : (BufOp.putstr (txt "Hello")).Legal := (by decide : (0 : UInt8) ∉ txt "Hello")
  have hreach := (BufReach.op .init hlegal hrun).rewind (by decide : 2 ≤ 5)
  exact bufReach_sound (by decide) (by decide) hreach (by decide)

end Pcl
