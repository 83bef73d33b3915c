import ElcoOs.Kstring.Search

/-!
# kstrtok

The tokeniser with its static pointer `p`. What a sequence of calls is to
return is said on the original string alone; the buffer, which the calls
change as they go, keeps what lies behind the saved position.
-/

namespace ElcoOs.Kstring

/-- What a call returns and leaves: the memory and the static `p`. -/
structure Strtok where
  result : Option Nat
  mem : Memory
  p : Option Nat

def kstrtok (m : Memory) (p s1 : Option Nat) (s2 : Nat) : Option Strtok :=
  -- `s1` if it is not NULL, else the saved pointer
  match s1.or p with
  | none => some ⟨none, m, none⟩
  | some p =>
    match kstrspn m p s2 with
    | none => none
    | some n =>
      let s1 := Word32.add p n
      match kstrcspn m s1 s2 with
      | none => none
      | some n =>
        let p := Word32.add s1 n
        if s1 = p then some ⟨none, m, none⟩
        else if m p = 0 then some ⟨some s1, m, none⟩
        else some ⟨some s1, m.store8 p 0, some (Word32.add p 1)⟩

-- ---------------------------------------------------------------------------
-- The tokens of a string
-- ---------------------------------------------------------------------------

/-- From the saved position: the start and the characters of the next token,
and the position saved after it. -/
def nextToken (xs ds : List UInt8) : Option Nat → Option (Nat × List UInt8) × Option Nat
  | none => (none, none)
  | some i =>
    let start := i + ((xs.drop i).takeWhile (· ∈ ds)).length
    let token := (xs.drop start).takeWhile (· ∉ ds)
    if token = [] then (none, none)
    else
      (some (start, token), if start + token.length = xs.length then none else
      some (start + token.length + 1))

def tokenStep (xs : List UInt8) (t : List (Option (Nat × List UInt8)) × Option Nat)
    (ds : List UInt8) :
    List (Option (Nat × List UInt8)) × Option Nat :=
  (t.1 ++ [(nextToken xs ds t.2).1], (nextToken xs ds t.2).2)

/-- What the calls with the delimiters `dss`, one after the other, find. -/
def tokenise (xs : List UInt8) (dss : List (List UInt8)) :
    List (Option (Nat × List UInt8)) × Option Nat :=
  dss.foldl (tokenStep xs) ([], some 0)

/-- `j` is the delimiter directly after a token that does not end the string. -/
def Cut (xs : List UInt8) (ts : List (Option (Nat × List UInt8))) (j : Nat) : Prop :=
  j < xs.length ∧ ∃ t, some t ∈ ts ∧ j = t.1 + t.2.length

-- ---------------------------------------------------------------------------
-- One call
-- ---------------------------------------------------------------------------

variable {m₀ m m₁ : Memory} {buf a i j : Nat} {xs ds : List UInt8}
  {ts : List (Option (Nat × List UInt8))} {pos p s1 : Option Nat}

/-- The delimiters `ds` as a string that lies apart from the buffer. -/
structure Delims (m : Memory) (buf n a : Nat) (ds : List UInt8) : Prop where
  string : CString m a ds
  apart : a + ds.length < buf ∨ buf + n < a

/-- After the tokens `ts`, with `pos` saved: behind it the buffer is the old
one, and before it the tokens stand with their delimiters cut. -/
structure Tokenised (m₀ : Memory) (buf : Nat) (xs : List UInt8)
    (ts : List (Option (Nat × List UInt8))) (pos : Option Nat) (m : Memory) : Prop where
  rest : ∀ i, pos = some i → i ≤ xs.length ∧ CString m (buf + i) (xs.drop i)
  behind : ∀ i, pos = some i → ∀ t, some t ∈ ts → t.1 + t.2.length < i
  within : ∀ t, some t ∈ ts → t.1 + t.2.length ≤ xs.length
  tokens : ∀ t, some t ∈ ts → CString m (buf + t.1) t.2
  cut : ∀ j ≤ xs.length, Cut xs ts j → m (buf + j) = 0
  kept : ∀ j ≤ xs.length, ¬Cut xs ts j → m (buf + j) = m₀ (buf + j)

theorem Tokenised.start (h : CString m₀ buf xs) : Tokenised m₀ buf xs [] (some 0) m₀ where
  rest i hi := by
    obtain rfl : 0 = i := Option.some.inj hi
    exact ⟨Nat.zero_le _, h⟩
  behind _ _ _ ht := by simp at ht
  within _ ht := by simp at ht
  tokens _ ht := by simp at ht
  cut _ _ hcut := by
    obtain ⟨-, t, ht, -⟩ := hcut
    simp at ht
  kept _ _ _ := rfl

theorem Tokenised.congr (h : Tokenised m₀ buf xs ts pos m)
    (hsame : ∀ j ≤ xs.length, m₁ (buf + j) = m (buf + j)) : Tokenised m₀ buf xs ts pos m₁ := by
  have hin : ∀ a, buf ≤ a → a ≤ buf + xs.length → m₁ a = m a := fun a h1 h2 => by
    have := hsame (a - buf) (by omega)
    rwa [Nat.add_sub_cancel' h1] at this
  refine ⟨fun i hi => ?_, h.behind, h.within, fun t ht => ?_, fun j hj hc => ?_, fun j hj hc => ?_⟩
  · obtain ⟨hle, hstr⟩ := h.rest i hi
    refine ⟨hle, hstr.congr fun a h1 h2 => hin a (by omega) ?_⟩
    rw [List.length_drop] at h2
    omega
  · have := h.within t ht
    exact (h.tokens t ht).congr fun a h1 h2 => hin a (by omega) (by omega)
  · rw [hsame j hj, h.cut j hj hc]
  · rw [hsame j hj, h.kept j hj hc]

theorem Tokenised.stop (h : Tokenised m₀ buf xs ts pos m) :
    Tokenised m₀ buf xs (ts ++ [none]) none m := by
  have hmem : ∀ t, some t ∈ ts ++ [none] → some t ∈ ts := fun t ht => by simpa using ht
  have hcut : ∀ j, Cut xs (ts ++ [none]) j ↔ Cut xs ts j := fun j => by simp [Cut]
  exact ⟨fun _ hi => by simp at hi, fun _ hi => by simp at hi, fun t ht => h.within t (hmem t ht),
    fun t ht => h.tokens t (hmem t ht),
    fun j hj hc => h.cut j hj ((hcut j).mp hc), fun j hj hc => h.kept j hj (mt (hcut j).mpr hc)⟩

theorem Tokenised.last {tok : List UInt8} (h : Tokenised m₀ buf xs ts (some i) m) (hi : i ≤ j)
    (hj : j ≤ xs.length) (htok : tok <+: xs.drop j) (hend : j + tok.length = xs.length) :
    Tokenised m₀ buf xs (ts ++ [some (j, tok)]) none m := by
  have hstr : CString m (buf + j) tok := by
    obtain ⟨hile, hrest⟩ := h.rest i rfl
    have hdrop := hrest.drop (j - i) (by rw [List.length_drop]; omega)
    rw [List.drop_drop, Nat.add_sub_cancel' hi, show buf + i + (j - i) = buf + j by omega] at hdrop
    rwa [htok.eq_of_length (by rw [List.length_drop]; omega)]
  have hcut : ∀ k, Cut xs (ts ++ [some (j, tok)]) k ↔ Cut xs ts k := by
    intro k
    constructor
    · rintro ⟨hk, t, ht, rfl⟩
      rcases List.mem_append.mp ht with ht | ht
      · exact ⟨hk, t, ht, rfl⟩
      · obtain rfl : t = (j, tok) := by simpa using ht
        exact absurd hend (Nat.ne_of_lt hk)
    · rintro ⟨hk, t, ht, rfl⟩
      exact ⟨hk, t, List.mem_append_left _ ht, rfl⟩
  refine ⟨fun _ hn => by simp at hn, fun _ hn => by simp at hn, fun t ht => ?_, fun t ht => ?_,
    fun k hk hc => h.cut k hk ((hcut k).mp hc), fun k hk hc => h.kept k hk (mt (hcut k).mpr hc)⟩
  · rcases List.mem_append.mp ht with ht | ht
    · exact h.within t ht
    · obtain rfl : t = (j, tok) := by simpa using ht
      exact Nat.le_of_eq hend
  · rcases List.mem_append.mp ht with ht | ht
    · exact h.tokens t ht
    · obtain rfl : t = (j, tok) := by simpa using ht
      exact hstr

theorem Tokenised.next {tok : List UInt8} (h : Tokenised m₀ buf xs ts (some i) m) (hi : i ≤ j)
    (htok : tok <+: xs.drop j) (hend : j + tok.length < xs.length) :
    Tokenised m₀ buf xs (ts ++ [some (j, tok)]) (some (j + tok.length + 1))
      (m.store8 (buf + (j + tok.length)) 0) := by
  obtain ⟨hile, hrest⟩ := h.rest i rfl
  have hdrop : ∀ k, i ≤ k → k ≤ xs.length → CString m (buf + k) (xs.drop k) := by
    intro k hik hk
    have hstr := hrest.drop (k - i) (by rw [List.length_drop]; omega)
    rwa [List.drop_drop, Nat.add_sub_cancel' hik, show buf + i + (k - i) = buf + k by omega] at hstr
  have hstore : ∀ k, k ≠ j + tok.length →
    (m.store8 (buf + (j + tok.length)) 0) (buf + k) = m (buf + k) :=
    fun k hk => if_neg (by omega)
  refine ⟨fun k hk => ?_, fun k hk t ht => ?_, fun t ht => ?_, fun t ht => ?_, fun k hk hc => ?_,
    fun k hk hc => ?_⟩
  · obtain rfl := Option.some.inj hk
    exact ⟨hend, (hdrop _ (by omega) hend).congr fun a ha _ => if_neg (by omega)⟩
  · obtain rfl := Option.some.inj hk
    rcases List.mem_append.mp ht with ht | ht
    · have := h.behind i rfl t ht
      omega
    · obtain rfl : t = (j, tok) := by simpa using ht
      exact Nat.lt_succ_self _
  · rcases List.mem_append.mp ht with ht | ht
    · exact h.within t ht
    · obtain rfl : t = (j, tok) := by simpa using ht
      exact Nat.le_of_lt hend
  · rcases List.mem_append.mp ht with ht | ht
    · have := h.behind i rfl t ht
      exact (h.tokens t ht).congr fun a _ _ => if_neg (by omega)
    · obtain rfl : t = (j, tok) := by simpa using ht
      rw [← Nat.add_assoc]
      exact (hdrop j hi (by omega)).cut htok
  · by_cases hkj : k = j + tok.length
    · exact if_pos (by rw [hkj])
    · obtain ⟨hlt, t, ht, rfl⟩ := hc
      rcases List.mem_append.mp ht with ht | ht
      · rw [hstore _ hkj, h.cut _ hk ⟨hlt, t, ht, rfl⟩]
      · obtain rfl : t = (j, tok) := by simpa using ht
        exact absurd rfl hkj
  · have hkj : k ≠ j + tok.length := by
      rintro rfl
      exact hc ⟨hend, (j, tok), by simp, rfl⟩
    rw [hstore k hkj, h.kept k hk]
    rintro ⟨hlt, t, ht, rfl⟩
    exact hc ⟨hlt, t, List.mem_append_left _ ht, rfl⟩

/-- One call, from any position: it returns what the string says, changes
no byte outside of the buffer and keeps the buffer in order. -/
theorem kstrtok_call (h : Tokenised m₀ buf xs ts pos m) (hp : s1.or p = pos.map (buf + ·))
    (hd : Delims m buf xs.length a ds) :
    ∃ r, kstrtok m p s1 a = some r ∧ r.result = (nextToken xs ds pos).1.map (fun t => buf + t.1) ∧
      r.p = (nextToken xs ds pos).2.map (buf + ·) ∧
      (∀ b, b < buf ∨ buf + xs.length < b → r.mem b = m b) ∧
      Tokenised m₀ buf xs (ts ++ [(nextToken xs ds pos).1]) (nextToken xs ds pos).2 r.mem := by
  cases pos with
  | none =>
    exact ⟨⟨none, m, none⟩, by rw [kstrtok, hp, Option.map_none], rfl, rfl, fun _ _ => rfl, h.stop⟩
  | some i =>
    obtain ⟨hi, hrest⟩ := h.rest i rfl
    have hlt := hrest.lt
    rw [List.length_drop] at hlt
    -- the delimiters skipped
    have hskip := (List.takeWhile_prefix (l := xs.drop i) (fun x => decide (x ∈ ds))).length_le
    rw [List.length_drop] at hskip
    generalize hn : ((xs.drop i).takeWhile fun x => decide (x ∈ ds)).length = n at hskip
    have hfrom : CString m (buf + i + n) (xs.drop (i + n)) := by
      rw [← List.drop_drop]
      exact hrest.drop n (by rw [List.length_drop]; omega)
    -- the token
    have htok := List.takeWhile_prefix (l := xs.drop (i + n)) (fun x => !decide (x ∈ ds))
    have hlen := htok.length_le
    rw [List.length_drop] at hlen
    generalize htokeq : ((xs.drop (i + n)).takeWhile fun x => !decide (x ∈ ds)) = tok at htok hlen
    have hnext : nextToken xs ds (some i) = if tok = [] then (none, none) else
        (some (i + n, tok), if i + n + tok.length = xs.length then none else
        some (i + n + tok.length + 1)) := by
      simp only [nextToken, decide_not, hn, htokeq]
    have hrun : kstrtok m p s1 a =
        if buf + i + n = buf + i + n + tok.length then some ⟨none, m, none⟩
        else if m (buf + i + n + tok.length) = 0 then some ⟨some (buf + i + n), m, none⟩
        else some ⟨some (buf + i + n), m.store8 (buf + i + n + tok.length) 0,
          some (Word32.add (buf + i + n + tok.length) 1)⟩ := by
      have hspn := kstrspn_string hrest hd.string
      have hcspn := kstrcspn_string hfrom hd.string
      simp only [decide_not] at hcspn
      rw [hn] at hspn
      rw [htokeq] at hcspn
      have hadd1 : Word32.add (buf + i) n = buf + i + n := Word32.add_of_lt (by omega)
      have hadd2 : Word32.add (buf + i + n) tok.length = buf + i + n + tok.length :=
        Word32.add_of_lt (by omega)
      simp only [kstrtok, hp, Option.map_some, hspn, hadd1, hcspn, hadd2]
    rw [hnext, hrun]
    by_cases hempty : tok = []
    · rw [if_pos (by simp [hempty]), if_pos hempty]
      exact ⟨_, rfl, rfl, rfl, fun _ _ => rfl, h.stop⟩
    · have hpos : tok.length ≠ 0 := mt List.length_eq_zero_iff.mp hempty
      have hfar := hfrom.drop tok.length (by rw [List.length_drop]; omega)
      rw [if_neg (by omega), if_neg hempty]
      by_cases hend : i + n + tok.length = xs.length
      · have hnul : m (buf + i + n + tok.length) = 0 := by
          have := hfrom.nul
          rwa [List.length_drop, show buf + i + n + (xs.length - (i + n)) =
            buf + i + n + tok.length by omega]
            at this
        rw [if_pos hnul, if_pos hend]
        exact ⟨_, rfl,
          by simp [Nat.add_assoc], rfl, fun _ _ => rfl, h.last (by omega) (by omega) htok hend⟩
      · have hdelim : m (buf + i + n + tok.length) ≠ 0 :=
          hfrom.ne_zero (by rw [List.length_drop]; omega)
        rw [if_neg hdelim, if_neg hend]
        refine ⟨_, rfl, by simp [Nat.add_assoc], ?_, fun b hb => if_neg (by omega), ?_⟩
        · simp only [Option.map_some, Option.some.injEq]
          rw [Word32.add_of_lt (by omega)]
          omega
        · have hkeep := h.next (show i ≤ i + n by omega) htok (by omega)
          rwa [show buf + (i + n + tok.length) = buf + i + n + tok.length by omega] at hkeep

-- ---------------------------------------------------------------------------
-- A sequence of calls
-- ---------------------------------------------------------------------------

/-- `kstrtok(buf, d1)`, `kstrtok(NULL, d2)`, and so on: the delimiters given,
the results, the memory and `p` after the calls, and the `s1` of the next
one. Between two calls the caller may write anywhere but into the buffer. -/
inductive Calls (m₀ : Memory) (buf n : Nat) :
    List (List UInt8) → List (Option Nat) → Memory → Option Nat → Option Nat → Prop where
  | start (p₀ : Option Nat) : Calls m₀ buf n [] [] m₀ p₀ (some buf)
  | call {dss : List (List UInt8)} {rs : List (Option Nat)} {m m₁ : Memory} {p s1 :
    Option Nat} {a : Nat}
      {ds : List UInt8} {r : Strtok} (hc : Calls m₀ buf n dss rs m p s1)
      (hsame : ∀ j ≤ n, m₁ (buf + j) = m (buf + j)) (hd : Delims m₁ buf n a ds)
      (hrun : kstrtok m₁ p s1 a = some r) :
      Calls m₀ buf n (dss ++ [ds]) (rs ++ [r.result]) r.mem r.p none

theorem tokenise_snoc (xs : List UInt8) (dss : List (List UInt8)) (ds : List UInt8) :
    tokenise xs (dss ++ [ds]) = tokenStep xs (tokenise xs dss) ds := List.foldl_append

theorem Calls.tokenised {dss : List (List UInt8)} {rs : List (Option Nat)} (h : CString m₀ buf xs)
    (hc : Calls m₀ buf xs.length dss rs m p s1) :
    rs = (tokenise xs dss).1.map (Option.map fun t => buf + t.1) ∧
      s1.or p = (tokenise xs dss).2.map (buf + ·) ∧
      Tokenised m₀ buf xs (tokenise xs dss).1 (tokenise xs dss).2 m := by
  induction hc with
  | start p₀ => exact ⟨rfl, rfl, .start h⟩
  | call hc hsame hd hrun ih =>
    obtain ⟨hrs, hp, ht⟩ := ih
    obtain ⟨r', hrun', hresult, hsaved, -, hkeep⟩ := kstrtok_call (ht.congr hsame) hp hd
    obtain rfl := Option.some.inj (hrun.symm.trans hrun')
    rw [tokenise_snoc, tokenStep]
    refine ⟨?_, hsaved, hkeep⟩
    rw [List.map_append, hrs, hresult]
    rfl

/-- After any number of calls the results are the tokens of the original
string, each of them stands in the buffer as a string, and the bytes changed
are the delimiters behind the tokens. Each further call returns and changes
nothing outside of the buffer. -/
theorem kstrtok_tokens (m₀ : Memory) (buf : Nat) (xs : List UInt8) (h : CString m₀ buf xs)
    (dss : List (List UInt8)) (rs : List (Option Nat)) (m : Memory) (p s1 : Option Nat)
    (hc : Calls m₀ buf xs.length dss rs m p s1) :
    rs = (tokenise xs dss).1.map (Option.map fun t => buf + t.1) ∧
      (∀ t, some t ∈ (tokenise xs dss).1 → CString m (buf + t.1) t.2) ∧
      (∀ j ≤ xs.length, Cut xs (tokenise xs dss).1 j → m (buf + j) = 0) ∧
      (∀ j ≤ xs.length, ¬Cut xs (tokenise xs dss).1 j → m (buf + j) = m₀ (buf + j)) ∧
      ∀ m₁ a ds, (∀ j ≤ xs.length, m₁ (buf + j) = m (buf + j)) → Delims m₁ buf xs.length a ds →
        ∃ r, kstrtok m₁ p s1 a = some r ∧ ∀ b, b < buf ∨ buf + xs.length < b → r.mem b = m₁ b := by
  obtain ⟨hrs, hp, ht⟩ := hc.tokenised h
  refine ⟨hrs, ht.tokens, ht.cut, ht.kept, fun m₁ a ds hsame hd => ?_⟩
  obtain ⟨r, hrun, -, -, hout, -⟩ := kstrtok_call (ht.congr hsame) hp hd
  exact ⟨r, hrun, hout⟩

def dashed : Memory := fun a => if a = 64 then 97 else if a = 65 ∨ a = 80 then 45 else
    if a = 66 then 98 else 0

theorem dashed_first : kstrtok dashed none (some 64) 80 =
    some ⟨some 64, dashed.store8 65 0, some 66⟩ := rfl

theorem kstrtok_tokens_dashed :
    [some 64] = (tokenise [97, 45, 98] [[45]]).1.map (Option.map fun t => 64 + t.1) ∧
      (∀ t, some t ∈ (tokenise [97, 45, 98] [[45]]).1 →
      CString (dashed.store8 65 0) (64 + t.1) t.2) ∧
      (∀ j ≤ 3, Cut [97, 45, 98] (tokenise [97, 45, 98] [[45]]).1 j →
      (dashed.store8 65 0) (64 + j) = 0) ∧
      (∀ j ≤ 3, ¬Cut [97, 45, 98] (tokenise [97, 45, 98] [[45]]).1 j →
        (dashed.store8 65 0) (64 + j) = dashed (64 + j)) ∧
      ∀ m₁ a ds, (∀ j ≤ 3, m₁ (64 + j) = (dashed.store8 65 0) (64 + j)) → Delims m₁ 64 3 a ds →
        ∃ r, kstrtok m₁ (some 66) none a = some r ∧ ∀ b, b < 64 ∨ 64 + 3 < b → r.mem b = m₁ b :=
  kstrtok_tokens dashed 64 [97, 45, 98] (by simp [CString, dashed]) [[45]] [some 64]
    (dashed.store8 65 0) (some 66) none
    (.call (.start none) (fun _ _ => rfl) ⟨by simp [CString, dashed], by decide⟩ dashed_first)

end ElcoOs.Kstring
