import MyMisu.Numbers
import MyMisu.Shell.Field

/-!
# Login

`login_screen` reads a user name and a password until one of three pairs has been typed.  The keys are
those that will be pressed; the screen goes away 150 ticks after the greeting, which shows nothing.
-/

namespace MyMisu

def version : String := "v2.0.6"

/-- The box with the cat. -/
def loginBanner : List Console :=
  let line (s : String) : Console := .print (ascii "    " ++ ascii s ++ [10])
  [.clear, .print [10, 10], .ink vgaLightCyan,
    line "+============================================================+",
    line "|                                                            |",
    line "|                       |\\---/|                              |",
    line "|                       | ,_, |                              |",
    line "|                        \\_`_/-..--.                         |",
    line "|                     ___/ `   ' ,+ \\                        |",
    line "|                    (__...'  _/  |`._;                      |",
    line "|                      (_,..'(_,.`__)                        |",
    line "|                                                            |",
    line "|                        MyMisu OS                           |",
    line "|              a bare-metal x86 operating system             |",
    line "|                                                            |",
    .ink vgaDarkGrey,
    .print (ascii "    |                          " ++ ascii version ++
      ascii "                            |\n"),
    .ink vgaLightCyan,
    line "+============================================================+",
    .print [10]]

/-- The user names with their passwords. -/
def credentials : List (CStr × CStr) :=
  [(.ofString "misu", .ofString "misu"), (.ofString "admin", .ofString "admin"),
    (.ofString "james", .ofString "1234")]

def authenticated (user pass : CharArray 32) : Bool :=
  credentials.any fun c => strcmp user.bytes c.1.bytes = 0 && strcmp pass.bytes c.2.bytes = 0

def loginPrompt (text : String) : List Console :=
  [.ink vgaLightGrey, .print (ascii "                       " ++ ascii text), .ink vgaWhite]

/-- What is shown of a wrong pair. -/
def loginRejected (attempts : ℤ) : List Console :=
  [.ink vgaLightRed,
    .print (ascii "\n                       Invalid credentials (attempt " ++ printInt attempts ++ ascii ").\n")] ++
  (if attempts ≥ 3 then
    [.ink vgaDarkGrey, .print (ascii "                       Hint: misu/misu or admin/admin\n")]
  else []) ++ [.print [10]]

/-- The `while(1)` of `login_screen`; the arrays keep what the last round left in them. -/
def loginLoop (attempts : ℤ) (user pass : CharArray 32) (out : List Console) (keys : List UInt8) :
    Except Stuck (List UInt8 × List Console) :=
  match _hu : readField id [.putchar 10] ⟨user, 0⟩ (out ++ loginPrompt "Username: ") keys with
  | .error e => .error e
  | .ok (user, keys', out) =>
    match _hp : readField (fun _ => 42) [.putchar 10] ⟨pass, 0⟩ (out ++ loginPrompt "Password: ") keys' with
    | .error e => .error e
    | .ok (pass, rest, out) =>
      if authenticated user pass then
        .ok (rest, out ++ [.ink vgaLightGreen,
          .print (ascii "\n                       Authenticated. Welcome, " ++ user.str.bytes ++ ascii ".\n"),
          .clear])
      else
        let attempts := wrapInt32 (attempts + 1)
        loginLoop attempts user pass (out ++ loginRejected attempts) rest
termination_by keys.length
decreasing_by exact (readField_shorter _hp).trans (readField_shorter _hu)

def loginScreen (user pass : CharArray 32) (keys : List UInt8) :
    Except Stuck (List UInt8 × List Console) :=
  loginLoop 0 user pass loginBanner keys

/-! ## Who is admitted -/

/-- The lines that the keys type are one of the pairs. -/
def Admits (pairs : List (String × String)) (u p : List UInt8) : Prop :=
  ∃ c ∈ pairs, typed 31 u = ascii c.1 ∧ typed 31 p = ascii c.2

/-- A pair of lines, each with its newline. -/
def pairKeys (pair : List UInt8 × List UInt8) : List UInt8 := pair.1 ++ 10 :: (pair.2 ++ [10])

/-- Two lines of which the keys are no newlines, and that are none of the pairs. -/
structure FailedPair (pairs : List (String × String)) (pair : List UInt8 × List UInt8) : Prop where
  user : 10 ∉ pair.1
  pass : 10 ∉ pair.2
  wrong : ¬ Admits pairs pair.1 pair.2

/-- The keys are pairs of lines of which the last one, and no earlier one, is one of `pairs`, with `rest`
behind them. -/
def FirstAdmitted (pairs : List (String × String)) (keys rest : List UInt8) : Prop :=
  ∃ (failed : List (List UInt8 × List UInt8)) (u p : List UInt8),
    (∀ pair ∈ failed, FailedPair pairs pair) ∧ 10 ∉ u ∧ 10 ∉ p ∧ Admits pairs u p ∧
      keys = failed.flatMap pairKeys ++ pairKeys (u, p) ++ rest

/-- The pairs that `login_screen` compares with. -/
def listed : List (String × String) := [("misu", "misu"), ("admin", "admin"), ("james", "1234")]

theorem credentials_eq : credentials = listed.map fun c => (.ofString c.1, .ofString c.2) := rfl

theorem authenticated_iff {user pass : CharArray 32} {u p : List UInt8}
    (hu : user.str.bytes = typed 31 u) (hp : pass.str.bytes = typed 31 p) :
    authenticated user pass = true ↔ Admits listed u p := by
  unfold authenticated Admits
  rw [credentials_eq, List.any_map, List.any_eq_true]
  -- `strcmp` stops at the terminators, so what is behind them does not count
  refine exists_congr fun c => and_congr_right fun _ => ?_
  simp only [Function.comp]
  rw [Bool.and_eq_true, decide_eq_true_iff, decide_eq_true_iff, strcmp_eq_zero, strcmp_eq_zero,
    CStr.cString_bytes, CStr.cString_bytes, ← hu, ← hp]
  rfl

section Round

variable (attempts : ℤ) (user pass : CharArray 32) (out : List Console)

/-- A round in which both fields are read. -/
theorem loginLoop_read {keys keys' rest : List UInt8} {user' pass' : CharArray 32} {out₁ out₂ : List Console}
    (huser : readField id [.putchar 10] ⟨user, 0⟩ (out ++ loginPrompt "Username: ") keys =
      .ok (user', keys', out₁))
    (hpass : readField (fun _ => 42) [.putchar 10] ⟨pass, 0⟩ (out₁ ++ loginPrompt "Password: ") keys' =
      .ok (pass', rest, out₂)) :
    loginLoop attempts user pass out keys =
      if authenticated user' pass' then
        .ok (rest, out₂ ++ [.ink vgaLightGreen,
          .print (ascii "\n                       Authenticated. Welcome, " ++ user'.str.bytes ++ ascii ".\n"),
          .clear])
      else
        loginLoop (wrapInt32 (attempts + 1)) user' pass'
          (out₂ ++ loginRejected (wrapInt32 (attempts + 1))) rest := by
  rw [loginLoop]
  split
  · next e he =>
    rw [huser] at he
    cases he
  next a more shown he =>
  rw [huser] at he
  cases he
  split
  · next e he =>
    rw [hpass] at he
    cases he
  next a more shown he =>
  rw [hpass] at he
  cases he
  rfl

/-- One round. -/
theorem loginLoop_pair {u p : List UInt8} (hu : 10 ∉ u) (hp : 10 ∉ p) (rest : List UInt8) :
    (Admits listed u p ∧ ∃ shown, loginLoop attempts user pass out (pairKeys (u, p) ++ rest) = .ok (rest, shown)) ∨
      (¬ Admits listed u p ∧ ∃ user' pass' shown,
        loginLoop attempts user pass out (pairKeys (u, p) ++ rest) =
          loginLoop (wrapInt32 (attempts + 1)) user' pass' shown rest) := by
  have hkeys : pairKeys (u, p) ++ rest = u ++ 10 :: (p ++ 10 :: rest) := by
    simp [pairKeys]
  obtain ⟨user', out₁, hreadUser, huser⟩ := @readField_ok id [.putchar 10] ⟨user, 0⟩ [] u
    (.empty _ rfl (by decide)) hu (p ++ 10 :: rest) (out ++ loginPrompt "Username: ")
  obtain ⟨pass', out₂, hreadPass, hpass⟩ := @readField_ok (fun _ => 42) [.putchar 10] ⟨pass, 0⟩ [] p
    (.empty _ rfl (by decide)) hp rest (out₁ ++ loginPrompt "Password: ")
  have hauth := @authenticated_iff user' pass' u p huser hpass
  rw [hkeys, loginLoop_read attempts user pass out hreadUser hreadPass]
  by_cases hadmits : Admits listed u p
  · rw [if_pos (hauth.mpr hadmits)]
    exact .inl ⟨hadmits, _, rfl⟩
  · rw [if_neg (mt hauth.mp hadmits)]
    exact .inr ⟨hadmits, _, _, _, rfl⟩

/-- Keys without two newlines. -/
def Incomplete (keys : List UInt8) : Prop :=
  ∀ u p rest, keys = u ++ 10 :: (p ++ 10 :: rest) → 10 ∈ u ∨ 10 ∈ p

/-- The keys run out in the user name, or in the password. -/
theorem loginLoop_waiting {keys : List UInt8} (hkeys : Incomplete keys) :
    loginLoop attempts user pass out keys = .error .waiting := by
  rw [loginLoop]
  by_cases hline : 10 ∈ keys
  · obtain ⟨u, rest, rfl, hu⟩ := List.eq_append_cons_of_mem hline
    have hrest : 10 ∉ rest := by
      intro hmem
      obtain ⟨p, more, rfl, hp⟩ := List.eq_append_cons_of_mem hmem
      exact (hkeys u p more rfl).elim hu hp
    obtain ⟨user', out₁, hreadUser, -⟩ := @readField_ok id [.putchar 10] ⟨user, 0⟩ [] u
      (.empty _ rfl (by decide)) hu rest (out ++ loginPrompt "Username: ")
    have hreadPass := @readField_waiting (fun _ => 42) [.putchar 10] ⟨pass, 0⟩ [] rest
      (.empty _ rfl (by decide)) hrest (out₁ ++ loginPrompt "Password: ")
    split
    · next e he =>
      rw [hreadUser] at he
      cases he
    next a more shown he =>
    rw [hreadUser] at he
    cases he
    split
    · next e he =>
      rw [hreadPass] at he
      cases he
      rfl
    · next he =>
      rw [hreadPass] at he
      cases he
  · have hreadUser := @readField_waiting id [.putchar 10] ⟨user, 0⟩ [] keys
      (.empty _ rfl (by decide)) hline (out ++ loginPrompt "Username: ")
    split
    · next e he =>
      rw [hreadUser] at he
      cases he
      rfl
    · next he =>
      rw [hreadUser] at he
      cases he

end Round

/-! ## Every stream of keys -/

theorem loginLoop_failed (attempts : ℤ) (user pass : CharArray 32) (out : List Console)
    {failed : List (List UInt8 × List UInt8)} (hfailed : ∀ pair ∈ failed, FailedPair listed pair)
    (keys : List UInt8) :
    ∃ attempts' user' pass' shown, loginLoop attempts user pass out (failed.flatMap pairKeys ++ keys) =
      loginLoop attempts' user' pass' shown keys := by
  induction failed generalizing attempts user pass out with
  | nil => exact ⟨attempts, user, pass, out, rfl⟩
  | cons pair failed ih =>
    rw [List.forall_mem_cons] at hfailed
    rw [List.flatMap_cons, List.append_assoc]
    rcases loginLoop_pair attempts user pass out hfailed.1.user hfailed.1.pass
      (failed.flatMap pairKeys ++ keys) with h | ⟨-, user', pass', shown, hround⟩
    · exact absurd h.1 hfailed.1.wrong
    · rw [hround]
      exact ih _ user' pass' shown hfailed.2

/-- The pairs of lines up to the first admitted one, or up to keys that are no pair. -/
theorem keys_cases (keys : List UInt8) :
    ∃ failed : List (List UInt8 × List UInt8), (∀ pair ∈ failed, FailedPair listed pair) ∧
      ((∃ u p rest, 10 ∉ u ∧ 10 ∉ p ∧ Admits listed u p ∧
        keys = failed.flatMap pairKeys ++ pairKeys (u, p) ++ rest) ∨
      ∃ tail, Incomplete tail ∧ keys = failed.flatMap pairKeys ++ tail) := by
  induction hn : keys.length using Nat.strong_induction_on generalizing keys with
  | _ n ih =>
  by_cases hpair : Incomplete keys
  · exact ⟨[], List.forall_mem_nil _, .inr ⟨keys, hpair, rfl⟩⟩
  simp only [Incomplete, not_forall, not_or] at hpair
  obtain ⟨u, p, rest, hkeys, hu, hp⟩ := hpair
  have hsplit : keys = pairKeys (u, p) ++ rest := by simp [pairKeys, hkeys]
  by_cases hadmits : Admits listed u p
  · exact ⟨[], List.forall_mem_nil _, .inl ⟨u, p, rest, hu, hp, hadmits, hsplit⟩⟩
  · have hshorter : rest.length < n := by
      rw [← hn, hkeys]
      simp
      omega
    obtain ⟨failed, hfailed, hcases⟩ := ih _ hshorter rest rfl
    refine ⟨(u, p) :: failed, List.forall_mem_cons.mpr ⟨⟨hu, hp, hadmits⟩, hfailed⟩, ?_⟩
    rcases hcases with ⟨u', p', more, hu', hp', hadmits', hrest⟩ | ⟨tail, htail, hrest⟩
    · refine .inl ⟨u', p', more, hu', hp', hadmits', ?_⟩
      rw [hsplit, hrest, List.flatMap_cons, List.append_assoc, List.append_assoc, List.append_assoc]
    · refine .inr ⟨tail, htail, ?_⟩
      rw [hsplit, hrest, List.flatMap_cons, List.append_assoc]

theorem loginScreen_admits (user pass : CharArray 32) {failed : List (List UInt8 × List UInt8)}
    (hfailed : ∀ pair ∈ failed, FailedPair listed pair) {u p : List UInt8} (hu : 10 ∉ u) (hp : 10 ∉ p)
    (hadmits : Admits listed u p) (rest : List UInt8) :
    ∃ shown, loginScreen user pass (failed.flatMap pairKeys ++ pairKeys (u, p) ++ rest) =
      .ok (rest, shown) := by
  obtain ⟨attempts', user', pass', shown, hrun⟩ :=
    loginLoop_failed 0 user pass loginBanner hfailed (pairKeys (u, p) ++ rest)
  rw [loginScreen, List.append_assoc, hrun]
  rcases loginLoop_pair attempts' user' pass' shown hu hp rest with h | h
  · exact h.2
  · exact absurd hadmits h.1

theorem login_admits_iff (user pass : CharArray 32) (keys rest : List UInt8) :
    ((∃ shown, loginScreen user pass keys = .ok (rest, shown)) ↔
      FirstAdmitted [("misu", "misu"), ("admin", "admin"), ("james", "1234")] keys rest) ∧
      ∀ e, loginScreen user pass keys = .error e → e = .waiting := by
  obtain ⟨failed, hfailed, hcases⟩ := keys_cases keys
  rcases hcases with ⟨u, p, rest', hu, hp, hadmits, rfl⟩ | ⟨tail, htail, rfl⟩
  · obtain ⟨shown, hrun⟩ := loginScreen_admits user pass hfailed hu hp hadmits rest'
    refine ⟨⟨?_, ?_⟩, fun e he => ?_⟩
    · rintro ⟨shown', h⟩
      rw [hrun] at h
      cases h
      exact ⟨failed, u, p, hfailed, hu, hp, hadmits, rfl⟩
    · rintro ⟨failed', u', p', hfailed', hu', hp', hadmits', hkeys⟩
      rw [hkeys]
      exact loginScreen_admits user pass hfailed' hu' hp' hadmits' rest
    · rw [hrun] at he
      cases he
  · -- the keys run out in a field
    obtain ⟨attempts', user', pass', shown, hrun⟩ :=
      loginLoop_failed 0 user pass loginBanner hfailed tail
    have hwaiting : loginScreen user pass (failed.flatMap pairKeys ++ tail) = .error .waiting := by
      rw [loginScreen, hrun, loginLoop_waiting attempts' user' pass' shown htail]
    refine ⟨⟨?_, ?_⟩, fun e he => ?_⟩
    · rintro ⟨shown', h⟩
      rw [hwaiting] at h
      cases h
    · rintro ⟨failed', u', p', hfailed', hu', hp', hadmits', hkeys⟩
      rw [hkeys]
      exact loginScreen_admits user pass hfailed' hu' hp' hadmits' rest
    · rw [hwaiting] at he
      cases he
      rfl

end MyMisu
