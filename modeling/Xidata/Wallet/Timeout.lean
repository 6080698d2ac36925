import Xidata.Wallet.Manager

/-!
Idle wallets are locked.  The deadline is one time for all wallets, which a method tests before
it puts it off; `set_timeout` puts it off without the test.  What is owed at a time are the
wallets that were unlocked before a pause of the length of the timeout and have not been
unlocked since: while `set_timeout` is not called after the deadline with a wallet still
unlocked, no call works with the keys of a wallet that is owed.
-/

namespace Xidata.Wallet

open Rollback

variable {c : Primitives} {d : Devices c}

/-- The wallet is there and locked. -/
def LockedIn (wallets : Wallets c d) (name : String) : Prop :=
  ∃ w, wallets.find name = some w ∧ w.isLocked

/-- The deadline has passed. -/
def Due (m : WalletManager c d) (now : ℤ) : Prop :=
  m.timeoutTime ≠ WalletManager.timepointMax ∧ m.timeoutTime ≤ now

/-! ### The deadline -/

theorem WalletApi.lock_locks (w : WalletApi c d) (hlocked : ¬ w.isLocked) :
    ∃ w', w.lock = .ok w' ∧ w'.isLocked := by
  cases w with
  | soft w =>
      have hlock := SoftWallet.lock_eq_ok.mpr ⟨hlocked, rfl⟩
      exact ⟨_, congrArg (Except.map soft) hlock, decide_eq_true rfl⟩
  | device s =>
      obtain ⟨s', hlock, hs'⟩ := d.lock_locks s hlocked
      exact ⟨device s', congrArg (Except.map device) hlock, hs'⟩

theorem WalletApi.unlock_throws (w : WalletApi c d) {password : String} {e : Error}
    (hlocked : w.isLocked) (h : (w.unlock password).2 = .error e) :
    (w.unlock password).1.isLocked := by
  cases w with
  | soft w =>
      unfold unlock at h ⊢
      dsimp only at h ⊢
      cases hunlock : w.unlock password with
      | error e => exact hlocked
      | ok w' =>
          rw [hunlock] at h
          cases h
  | device s => exact d.unlock_throws s password e hlocked h

/-- Locking the wallets of some rows locks these and leaves the others as they are. -/
theorem forUnlocked_lockBody {rows : List (String × WalletApi c d)} {wallets : Wallets c d}
    (hrows : ∀ row ∈ rows, wallets.find row.1 = some row.2) (hnodup : (rows.map Prod.fst).Nodup) :
    ∃ wallets', forUnlocked lockBody rows wallets () = (wallets', .ok ()) ∧ ∀ name,
      (name ∈ rows.map Prod.fst → LockedIn wallets' name) ∧
      (name ∉ rows.map Prod.fst → wallets'.find name = wallets.find name) := by
  induction rows generalizing wallets with
  | nil => exact ⟨wallets, rfl, fun name => ⟨fun h => (List.not_mem_nil h).elim, fun _ => rfl⟩⟩
  | cons row rows ih =>
      obtain ⟨name', w⟩ := row
      rw [List.map_cons, List.nodup_cons] at hnodup
      obtain ⟨hnew, hnodup⟩ := hnodup
      have hw : wallets.find name' = some w := hrows _ List.mem_cons_self
      -- the wallets as they are when the loop goes on
      obtain ⟨wallets₁, hgo, w₁, hfind, hlocked, hothers⟩ : ∃ wallets₁,
          forUnlocked lockBody ((name', w) :: rows) wallets () =
            forUnlocked lockBody rows wallets₁ () ∧
          ∃ w₁, wallets₁.find name' = some w₁ ∧ w₁.isLocked ∧
            ∀ name, name ≠ name' → wallets₁.find name = wallets.find name := by
        by_cases hlocked : w.isLocked
        · exact ⟨wallets, by rw [forUnlocked, if_pos hlocked], w, hw, hlocked, fun _ _ => rfl⟩
        · obtain ⟨w₁, hlock, hw₁⟩ := w.lock_locks hlocked
          refine ⟨wallets.set name' w₁, ?_, w₁, OrderedTable.find_set_self .., hw₁,
            fun name hne => OrderedTable.find_set_of_ne _ hne _⟩
          rw [forUnlocked, if_neg hlocked, lockBody, hlock]
      have hrest : ∀ row ∈ rows, wallets₁.find row.1 = some row.2 := fun row hrow => by
        have hname : row.1 ∈ rows.map Prod.fst := List.mem_map_of_mem hrow
        have hne : row.1 ≠ name' := fun h => hnew (h ▸ hname)
        exact (hothers row.1 hne).trans (hrows row (List.mem_cons_of_mem _ hrow))
      obtain ⟨wallets', hloop, hall⟩ := ih hrest hnodup
      refine ⟨wallets', hgo.trans hloop, fun name => ⟨fun hname => ?_, fun hname => ?_⟩⟩
      · obtain rfl | hname := List.mem_cons.mp hname
        · exact ⟨w₁, ((hall name).2 hnew).trans hfind, hlocked⟩
        · exact (hall name).1 hname
      · rw [List.map_cons, List.mem_cons, not_or] at hname
        exact ((hall name).2 hname.2).trans (hothers name hname.1)

namespace WalletManager

theorem lockAll_eq (m : WalletManager c d) :
    ∃ wallets, m.lockAll = ({ m with wallets }, .ok ()) ∧
      ∀ name, (m.wallets.find name).isSome → LockedIn wallets name := by
  have hrows : ∀ row ∈ m.wallets.rows, m.wallets.find row.1 = some row.2 := fun _ hrow =>
    OrderedTable.find_eq_some.mpr hrow
  obtain ⟨wallets, hloop, hall⟩ := forUnlocked_lockBody hrows m.wallets.nodup_keys
  refine ⟨wallets, by rw [lockAll, hloop], fun name hname => (hall name).1 ?_⟩
  exact OrderedTable.mem_keys.mpr (Option.isSome_iff_exists.mp hname)

/-- The deadline after a call at a time has tested it. -/
def putOff (m : WalletManager c d) (now : ℤ) : ℤ :=
  if m.timeoutTime = timepointMax then m.timeoutTime else now + m.timeout * second

theorem checkTimeout_eq (m : WalletManager c d) (now : ℤ) :
    ∃ wallets, m.checkTimeout now =
        ({ m with wallets, timeoutTime := m.putOff now }, .ok ()) ∧
      (Due m now → ∀ name, (m.wallets.find name).isSome →
        LockedIn wallets name) ∧
      (¬ Due m now → wallets = m.wallets) := by
  unfold checkTimeout putOff
  split
  · next hmax => exact ⟨m.wallets, rfl, fun h => absurd hmax h.1, fun _ => rfl⟩
  · next hmax =>
      split
      · next hdue =>
          obtain ⟨wallets, hlock, hlocked⟩ := m.lockAll_eq
          rw [hlock]
          exact ⟨wallets, rfl, fun _ => hlocked, fun h => absurd ⟨hmax, hdue⟩ h⟩
      · next hdue => exact ⟨m.wallets, rfl, fun h => absurd h.2 hdue, fun _ => rfl⟩

end WalletManager

/-! ### One call -/

/-- Which wallet a call unlocks. -/
def Call.unlocks : Call c d → Except Error (Reply c) → Option String
  | .unlock name _, .ok _ => some name
  | .create name _ _, .ok _ => some name
  | _, _ => none

/-- The rest of a method, after the test of the deadline: it leaves the deadline alone, it does
not work with the keys of a locked wallet and unlocks at most the one. -/
structure Keeps (m : WalletManager c d) (a : Answer c d) (unlocked : Option String) : Prop where
  timeout : a.manager.timeout = m.timeout
  timeoutTime : a.manager.timeoutTime = m.timeoutTime
  quiet : ∀ name, LockedIn m.wallets name →
    name ∉ a.keysOf ∧ (LockedIn a.manager.wallets name ∨ unlocked = some name)

namespace Keeps

variable {m : WalletManager c d} {unlocked : Option String} {reply : Except Error (Reply c)}
  {name : String} {w w' : WalletApi c d}

theorem refl : Keeps m ⟨m, reply, []⟩ unlocked :=
  ⟨rfl, rfl, fun _ hlocked => ⟨List.not_mem_nil, .inl hlocked⟩⟩

theorem files (files : Files) : Keeps m ⟨{ m with files }, reply, []⟩ unlocked :=
  ⟨rfl, rfl, fun _ hlocked => ⟨List.not_mem_nil, .inl hlocked⟩⟩

/-- A method that leaves locked wallets as they are. -/
theorem wallets {wallets : Wallets c d} {keysOf : List String}
    (hfind : ∀ name, LockedIn m.wallets name → wallets.find name = m.wallets.find name)
    (hkeysOf : ∀ name, LockedIn m.wallets name → name ∉ keysOf) :
    Keeps m ⟨{ m with wallets }, reply, keysOf⟩ unlocked := by
  refine ⟨rfl, rfl, fun name hname => ⟨hkeysOf name hname, .inl ?_⟩⟩
  obtain ⟨w, hw, hlocked⟩ := hname
  exact ⟨w, (hfind name ⟨w, hw, hlocked⟩).trans hw, hlocked⟩

/-- A method on one wallet. -/
theorem set {files : Files} {keysOf : List String}
    (hw : LockedIn m.wallets name → w.isLocked ∨ unlocked = some name)
    (hkeysOf : ∀ name, LockedIn m.wallets name → name ∉ keysOf) :
    Keeps m ⟨{ m with wallets := m.wallets.set name w, files }, reply, keysOf⟩ unlocked := by
  refine ⟨rfl, rfl, fun name' hname' => ⟨hkeysOf name' hname', ?_⟩⟩
  by_cases hname : name' = name
  · subst hname
    exact (hw hname').imp_left fun h => ⟨w, OrderedTable.find_set_self .., h⟩
  · obtain ⟨w', hw', hlocked⟩ := hname'
    exact .inl ⟨w', (OrderedTable.find_set_of_ne _ hname _).trans hw', hlocked⟩

end Keeps

theorem not_lockedIn {wallets : Wallets c d} {name : String} {w : WalletApi c d}
    (hfind : wallets.find name = some w) (hunlocked : ¬ w.isLocked) :
    ¬ LockedIn wallets name := by
  rintro ⟨w', hw', hlocked⟩
  rw [hfind] at hw'
  cases hw'
  exact hunlocked hlocked

namespace WalletManager

variable {m : WalletManager c d} {unlocked : Option String}

theorem keeps_onUnlocked (name : String)
    (method : WalletApi c d → Files → Outcome (WalletApi c d) (Reply c)) :
    Keeps m (m.onUnlocked name method) unlocked := by
  unfold onUnlocked
  cases hfind : m.wallets.find name with
  | none => exact Keeps.refl
  | some w =>
      rw [Option.elim_some]
      split
      · exact Keeps.refl
      · next hlocked =>
          have hnot := not_lockedIn hfind hlocked
          refine Keeps.set (fun h => absurd h hnot) fun name' hname' => ?_
          rintro hmem
          rw [List.mem_singleton] at hmem
          exact hnot (hmem ▸ hname')

theorem keeps_openFile (name : String) : Keeps m (m.openFile name) unlocked := by
  unfold openFile
  dsimp only
  split
  · exact Keeps.refl
  · exact Keeps.refl
  · next w hload =>
      -- a wallet from a file is locked
      have hw : w.isLocked := by
        obtain ⟨_, _, _, _, rfl⟩ := SoftWallet.loadWalletFile_eq_ok.mp hload
        exact decide_eq_true rfl
      exact Keeps.set (fun _ => .inl hw) fun _ _ => List.not_mem_nil

theorem keeps_createFile (name : String) (seed : c.Seed) (disk : Disk) :
    Keeps m (m.createFile name seed disk)
      ((Call.create name seed disk : Call c d).unlocks (m.createFile name seed disk).reply) := by
  unfold createFile
  dsimp only
  split
  · exact Keeps.refl
  · split
    · exact Keeps.files _
    · exact Keeps.set (fun _ => .inr rfl) fun _ _ => List.not_mem_nil

theorem keeps_unlockFound (name password : String) :
    Keeps m (m.unlockFound name password)
      ((Call.unlock name password : Call c d).unlocks (m.unlockFound name password).reply) := by
  unfold unlockFound
  cases hfind : m.wallets.find name with
  | none => exact Keeps.refl
  | some w =>
      rw [Option.elim_some]
      split
      · exact Keeps.refl
      · next hlocked =>
          refine Keeps.set (fun _ => ?_) fun _ _ => List.not_mem_nil
          cases hresult : (w.unlock password).2 with
          | ok u =>
              refine .inr ?_
              show (Call.unlock name password : Call c d).unlocks
                ((w.unlock password).2.map fun _ => Reply.done) = some name
              rw [hresult]
              rfl
          | error e =>
              exact .inl (w.unlock_throws (by rwa [Bool.not_eq_true', Bool.not_eq_false] at hlocked)
                hresult)

theorem find_loop {β : Type}
    {body : String → WalletApi c d → β → WalletApi c d × Except Error (β × Bool)}
    {wallets : Wallets c d} {b : β} {name : String} (hlocked : LockedIn wallets name) :
    (forUnlocked body wallets.rows wallets b).1.find name = wallets.find name := by
  refine find_forUnlocked fun w hw => ?_
  by_contra hunlocked
  exact not_lockedIn (OrderedTable.find_eq_some.mpr hw) hunlocked hlocked

/-- The wallet that signs is not a locked one. -/
theorem not_lockedIn_of_trySign {digest : c.Digest} {publicKey : c.PublicKey}
    {wallets wallets' : Wallets c d} {s : String × c.Signature}
    (h : trySign digest publicKey wallets = (wallets', .ok (some s))) :
    ¬ LockedIn wallets s.1 := by
  have hresult : (trySign digest publicKey wallets).2 = .ok (some s) := by rw [h]
  refine forUnlocked_result (I := fun b => ∀ s ∈ b, ¬ LockedIn wallets s.1) ?_ ?_ hresult s rfl
  · intro name w b b' go hw hunlocked _ hbody s hs
    unfold signBody at hbody
    split at hbody
    · cases hbody
      cases hs
      exact not_lockedIn (OrderedTable.find_eq_some.mpr hw) hunlocked
    · cases hbody
      cases hs
    · cases hbody
  · intro s hs
    cases hs

theorem find_trySign {digest : c.Digest} {publicKey : c.PublicKey} {wallets : Wallets c d}
    {r : Wallets c d × Except Error (Option (String × c.Signature))}
    (h : trySign digest publicKey wallets = r) {name : String} (hlocked : LockedIn wallets name) :
    r.1.find name = wallets.find name :=
  h ▸ find_loop hlocked

theorem lockedIn_of_find {wallets wallets' : Wallets c d} {name : String}
    (h : wallets'.find name = wallets.find name) (hlocked : LockedIn wallets name) :
    LockedIn wallets' name := by
  obtain ⟨w, hw, hlocked⟩ := hlocked
  exact ⟨w, h.trans hw, hlocked⟩

theorem signEach_quiet (digest : c.Digest) (keys : List c.PublicKey) {wallets : Wallets c d}
    (signed : List (String × c.Signature)) {name : String} (hlocked : LockedIn wallets name)
    (hsigned : name ∉ signed.map Prod.fst) :
    (signEach digest keys wallets signed).1.find name = wallets.find name ∧
      name ∉ (signEach digest keys wallets signed).2.1.map Prod.fst := by
  induction keys generalizing wallets signed with
  | nil => exact ⟨rfl, hsigned⟩
  | cons publicKey keys ih =>
      unfold signEach
      split
      · next h => exact ⟨find_trySign h hlocked, hsigned⟩
      · next h => exact ⟨find_trySign h hlocked, hsigned⟩
      · next wallets' s h =>
          have hfind : wallets'.find name = wallets.find name := find_trySign h hlocked
          have hne : name ∉ (signed ++ [s]).map Prod.fst := by
            rw [List.map_append, List.mem_append, not_or, List.map_singleton, List.mem_singleton]
            exact ⟨hsigned, fun h' => not_lockedIn_of_trySign h (h' ▸ hlocked)⟩
          obtain ⟨hrest, hkeysOf⟩ := ih (signed ++ [s]) (lockedIn_of_find hfind hlocked) hne
          exact ⟨hrest.trans hfind, hkeysOf⟩

end WalletManager

/-- The wallet is locked, or will be by the test of the deadline. -/
def Ready (m : WalletManager c d) (now : ℤ) (name : String) : Prop :=
  LockedIn m.wallets name ∨ Due m now ∧ (m.wallets.find name).isSome

/-- What a method does that tests the deadline first. -/
structure Steady (m : WalletManager c d) (now : ℤ) (a : Answer c d) (unlocked : Option String) :
    Prop where
  timeout : a.manager.timeout = m.timeout
  timeoutTime : a.manager.timeoutTime = m.putOff now
  quiet : ∀ name, Ready m now name →
    name ∉ a.keysOf ∧ (LockedIn a.manager.wallets name ∨ unlocked = some name)

theorem Steady.locked {m : WalletManager c d} {now : ℤ} {a : Answer c d} {name : String}
    (h : Steady m now a none) (hname : Ready m now name) : LockedIn a.manager.wallets name :=
  (h.quiet name hname).2.resolve_right (Option.some_ne_none _ ∘ Eq.symm)

theorem steady_checked (call : Call c d) {m : WalletManager c d} {now : ℤ}
    {method : WalletManager c d → Answer c d}
    (hmethod : ∀ m' : WalletManager c d, m'.putOff now = m'.timeoutTime →
      Keeps m' (method m') (call.unlocks (method m').reply)) :
    Steady m now (m.checked now method) (call.unlocks (m.checked now method).reply) := by
  obtain ⟨wallets, hcheck, hdue, hsame⟩ := m.checkTimeout_eq now
  have hchecked : m.checked now method =
      method { m with wallets, timeoutTime := m.putOff now } := by
    rw [WalletManager.checked, hcheck]
  have hkeeps := hmethod { m with wallets, timeoutTime := m.putOff now } (by
    unfold WalletManager.putOff
    split <;> simp [*])
  rw [hchecked]
  refine ⟨hkeeps.timeout, hkeeps.timeoutTime, fun name hname => hkeeps.quiet name ?_⟩
  by_cases h : Due m now
  · refine hdue h name (hname.elim ?_ And.right)
    rintro ⟨w, hw, -⟩
    exact hw ▸ rfl
  · obtain hlocked | ⟨hdue', -⟩ := hname
    · exact (hsame h).symm ▸ hlocked
    · exact absurd hdue' h

/-- The methods that test the deadline. -/
def Call.tests : Call c d → Bool
  | .setDir _ _ _ => false
  | .setTimeout _ => false
  | .lockAll => false
  | .ownAndUseWallet _ _ => false
  | _ => true

theorem steady_open (m : WalletManager c d) (now : ℤ) (name : String) :
    Steady m now (m.open' now name) none :=
  steady_checked (.open name) fun m' _ => by
    split
    · exact Keeps.refl
    · exact WalletManager.keeps_openFile name

theorem steady_call (m : WalletManager c d) (now : ℤ) {call : Call c d} (hcall : call.tests) :
    Steady m now (m.call now call) (call.unlocks (m.call now call).reply) := by
  cases call with
  | setDir | setTimeout | lockAll | ownAndUseWallet => cases hcall
  | «open» name => exact steady_open m now name
  | signTransaction txn keys id =>
      refine steady_checked (.signTransaction txn keys id) fun m' _ => ?_
      have hquiet (name : String) (hname : LockedIn m'.wallets name) :=
        WalletManager.signEach_quiet (c.sigDigest txn.transaction id) keys [] hname
          List.not_mem_nil
      exact Keeps.wallets (fun name hname => (hquiet name hname).1)
        fun name hname => (hquiet name hname).2
  | signDigest digest key =>
      refine steady_checked (.signDigest digest key) fun m' _ => ?_
      split
      · next h =>
          exact Keeps.wallets (fun name hname => WalletManager.find_trySign h hname)
            fun _ _ => List.not_mem_nil
      · next h =>
          exact Keeps.wallets (fun name hname => WalletManager.find_trySign h hname)
            fun _ _ => List.not_mem_nil
      · next h =>
          refine Keeps.wallets (fun name hname => WalletManager.find_trySign h hname)
            fun name hname hmem => ?_
          exact WalletManager.not_lockedIn_of_trySign h (List.mem_singleton.mp hmem ▸ hname)
  | create name seed disk =>
      refine steady_checked (.create name seed disk) fun m' _ => ?_
      split
      · exact Keeps.refl
      · split
        · exact Keeps.refl
        · exact WalletManager.keeps_createFile name seed disk
  | listWallets => exact steady_checked .listWallets fun _ _ => Keeps.refl
  | listKeys name password =>
      exact steady_checked (.listKeys name password) fun _ _ =>
        WalletManager.keeps_onUnlocked name _
  | getPublicKeys =>
      refine steady_checked .getPublicKeys fun m' _ => ?_
      split
      · exact Keeps.refl
      · refine Keeps.wallets (fun name hname => WalletManager.find_loop hname)
          fun name hname hmem => ?_
        obtain ⟨row, hrow, rfl⟩ := List.mem_map.mp hmem
        obtain ⟨hrow, hunlocked⟩ := List.mem_filter.mp hrow
        exact not_lockedIn (OrderedTable.find_eq_some.mpr hrow)
          (Bool.not_eq_true' _ ▸ hunlocked |> ne_true_of_eq_false) hname
  | lock name =>
      refine steady_checked (.lock name) fun m' _ => ?_
      cases hfind : m'.wallets.find name with
      | none => exact Keeps.refl
      | some w =>
          rw [Option.elim_some]
          split
          · exact Keeps.refl
          · next hlocked =>
              obtain ⟨w', hlock, hw'⟩ := w.lock_locks hlocked
              rw [hlock]
              exact Keeps.set (fun _ => .inl hw') fun _ _ => List.not_mem_nil
  | unlock name password =>
      refine steady_checked (.unlock name password) fun m' hm' => ?_
      have hopen := steady_open m' now name
      split
      · split
        · next h =>
            rw [h] at hopen
            exact ⟨hopen.timeout, hopen.timeoutTime.trans hm', fun name' hname' =>
              ⟨List.not_mem_nil, .inl (hopen.locked (.inl hname'))⟩⟩
        · next m₁ _ _ h =>
            rw [h] at hopen
            have hfound := WalletManager.keeps_unlockFound (m := m₁) name password
            exact ⟨hfound.timeout.trans hopen.timeout,
              hfound.timeoutTime.trans (hopen.timeoutTime.trans hm'), fun name' hname' =>
              hfound.quiet name' (hopen.locked (.inl hname'))⟩
      · exact WalletManager.keeps_unlockFound name password
  | importKey name wifKey disk =>
      exact steady_checked (.importKey name wifKey disk) fun _ _ =>
        WalletManager.keeps_onUnlocked name _
  | removeKey name password key disk =>
      exact steady_checked (.removeKey name password key disk) fun _ _ =>
        WalletManager.keeps_onUnlocked name _
  | createKey name keyType seed disk =>
      exact steady_checked (.createKey name keyType seed disk) fun _ _ =>
        WalletManager.keeps_onUnlocked name _

/-! ### Runs -/

/-- The manager, with what the law is about: the time of the last call, the timeout that has
been set, and the wallets that were unlocked before a pause of that length and have not been
unlocked since. -/
structure Session (c : Primitives) (d : Devices c) where
  manager : WalletManager c d
  last : Option ℤ
  timeout : Option ℤ
  owed : List String

def Session.start (wallets : Wallets c d) (dir : String) (files : Files) : Session c d :=
  { manager := { (WalletManager.start files : WalletManager c d) with wallets, dir }
    last := none, timeout := none, owed := [] }

/-- No call was made for as long as the timeout. -/
def Session.Idle (s : Session c d) (now : ℤ) : Prop :=
  ∃ t ∈ s.timeout, ∃ l ∈ s.last, t * WalletManager.second ≤ now - l

instance (s : Session c d) (now : ℤ) : Decidable (s.Idle now) :=
  inferInstanceAs (Decidable (∃ t ∈ s.timeout, ∃ l ∈ s.last, t * WalletManager.second ≤ now - l))

def WalletManager.unlockedNames (m : WalletManager c d) : List String :=
  (m.wallets.rows.filter fun i => !i.2.isLocked).map Prod.fst

/-- The wallets that a call must not work with. -/
def Session.owedAt (s : Session c d) (now : ℤ) : List String :=
  s.owed ++ if s.Idle now then s.manager.unlockedNames else []

/-- The timeout after a call. -/
def Call.timeout : Call c d → Option ℤ → Option ℤ
  | .setTimeout t, _ => some t
  | _, timeout => timeout

def Session.next (s : Session c d) (e : ℤ × Call c d) : Session c d :=
  let a := s.manager.call e.1 e.2
  { manager := a.manager
    last := some e.1
    timeout := e.2.timeout s.timeout
    owed := (s.owedAt e.1).filter fun name => e.2.unlocks a.reply ≠ some name }

/-- A call may throw, and what it has done until then stays. -/
def step (s : Session c d) (e : ℤ × Call c d) : Except Empty (Session c d) := .ok (s.next e)

/-- No call works with the keys of a wallet that is owed. -/
def LeavesIdle (s : Session c d) (e : ℤ × Call c d) : Prop :=
  ∀ name ∈ (s.manager.call e.1 e.2).keysOf, name ∉ s.owedAt e.1

/-- The clock does not run backwards, and the timeout added to it stays below the largest
time. -/
def InRange (s : Session c d) (e : ℤ × Call c d) : Prop :=
  (∀ l ∈ s.last, l ≤ e.1) ∧ ∀ t ∈ e.2.timeout s.timeout,
    e.1 + t * WalletManager.second < WalletManager.timepointMax

/-- `set_timeout` is called before the deadline, or with all wallets locked. -/
def SetInTime (s : Session c d) (e : ℤ × Call c d) : Prop :=
  ∀ t, e.2 = .setTimeout t →
    ¬ Due s.manager e.1 ∨ ∀ name w, s.manager.wallets.find name = some w → w.isLocked

/-- The deadline is no later than the timeout after the last call, and a wallet that is owed is
locked unless the deadline has passed. -/
structure Session.Inv (s : Session c d) : Prop where
  unset : s.timeout = none → s.manager.timeoutTime = WalletManager.timepointMax
  set : ∀ t ∈ s.timeout, s.manager.timeout = t ∧
    s.manager.timeoutTime ≠ WalletManager.timepointMax ∧
    ∃ l ∈ s.last, s.manager.timeoutTime ≤ l + t * WalletManager.second
  owed : ∀ name ∈ s.owed, LockedIn s.manager.wallets name ∨
    (∃ l ∈ s.last, Due s.manager l) ∧ (s.manager.wallets.find name).isSome

/-- A wallet that is owed is locked when a call tests the deadline. -/
theorem Session.Inv.ready {s : Session c d} (h : s.Inv) {now : ℤ} (hnow : ∀ l ∈ s.last, l ≤ now)
    {name : String} (hname : name ∈ s.owedAt now) : Ready s.manager now name := by
  obtain howed | hidle := List.mem_append.mp hname
  · obtain hlocked | ⟨⟨l, hl, hmax, hdue⟩, hsome⟩ := h.owed name howed
    · exact .inl hlocked
    · exact .inr ⟨⟨hmax, hdue.trans (hnow l hl)⟩, hsome⟩
  · split at hidle
    · next hpause =>
        obtain ⟨t, ht, l, hl, hlong⟩ := hpause
        obtain ⟨-, hmax, l', hl', hdeadline⟩ := h.set t ht
        cases Option.some.inj (hl.symm.trans hl')
        obtain ⟨row, hrow, rfl⟩ := List.mem_map.mp hidle
        refine .inr ⟨⟨hmax, by omega⟩, ?_⟩
        rw [OrderedTable.find_eq_some.mpr (List.mem_filter.mp hrow).1]
        rfl
    · cases hidle

theorem Session.Inv.start (wallets : Wallets c d) (dir : String) (files : Files) :
    (Session.start wallets dir files).Inv where
  unset _ := rfl
  set t ht := by cases ht
  owed name hname := by cases hname

/-- What a method does that neither tests nor changes the deadline. -/
structure Passive (m : WalletManager c d) (a : Answer c d) : Prop where
  timeout : a.manager.timeout = m.timeout
  timeoutTime : a.manager.timeoutTime = m.timeoutTime
  keysOf : a.keysOf = []
  locked : ∀ name, LockedIn m.wallets name → LockedIn a.manager.wallets name
  present : ∀ name, (m.wallets.find name).isSome → (a.manager.wallets.find name).isSome

theorem isSome_of_lockedIn {wallets : Wallets c d} {name : String} (h : LockedIn wallets name) :
    (wallets.find name).isSome := by
  obtain ⟨w, hw, -⟩ := h
  exact hw ▸ rfl

theorem passive_call (m : WalletManager c d) (now : ℤ) {call : Call c d}
    (htests : ¬ call.tests) (hset : ∀ t, call ≠ .setTimeout t) :
    Passive m (m.call now call) := by
  cases call with
  | setTimeout t => exact absurd rfl (hset t)
  | setDir dir opens locks => exact ⟨rfl, rfl, rfl, fun _ h => h, fun _ h => h⟩
  | lockAll =>
      obtain ⟨wallets, hlock, hlocked⟩ := m.lockAll_eq
      have hcall : m.call now .lockAll = ⟨{ m with wallets }, .ok .done, []⟩ := by
        rw [WalletManager.call, hlock]
        rfl
      rw [hcall]
      exact ⟨rfl, rfl, rfl, fun name h => hlocked name (isSome_of_lockedIn h),
        fun name h => isSome_of_lockedIn (hlocked name h)⟩
  | ownAndUseWallet name wallet =>
      show Passive m (m.ownAndUseWallet name wallet)
      unfold WalletManager.ownAndUseWallet
      split
      · exact ⟨rfl, rfl, rfl, fun _ h => h, fun _ h => h⟩
      · next hnew =>
          have hfind (name' : String) (h : (m.wallets.find name').isSome) :
              (m.wallets.set name wallet).find name' = m.wallets.find name' :=
            OrderedTable.find_set_of_ne _ (by rintro rfl; exact hnew h) _
          exact ⟨rfl, rfl, rfl, fun name' h =>
            WalletManager.lockedIn_of_find (hfind name' (isSome_of_lockedIn h)) h,
            fun name' h => (hfind name' h).symm ▸ h⟩
  | _ => exact absurd rfl htests

section Step

variable {s : Session c d} {now : ℤ} {call : Call c d}

theorem Session.Inv.ready_next (h : s.Inv) (hnow : ∀ l ∈ s.last, l ≤ now) {name : String}
    (hname : name ∈ (s.next (now, call)).owed) : Ready s.manager now name ∧
      call.unlocks (s.manager.call now call).reply ≠ some name := by
  obtain ⟨hname, hunlocks⟩ := List.mem_filter.mp hname
  exact ⟨h.ready hnow hname, of_decide_eq_true hunlocks⟩

theorem Session.Inv.next_tests (h : s.Inv) (hrange : InRange s (now, call))
    (htests : call.tests) (htimeout : call.timeout s.timeout = s.timeout) :
    (s.next (now, call)).Inv ∧ LeavesIdle s (now, call) := by
  have hsteady := steady_call s.manager now htests
  obtain ⟨hnow, hmax⟩ := hrange
  refine ⟨{ unset := ?_, set := ?_, owed := ?_ }, ?_⟩
  · intro hnone
    have hunset := h.unset (htimeout.symm.trans hnone)
    rw [next, hsteady.timeoutTime, WalletManager.putOff, if_pos hunset, hunset]
  · intro t ht
    obtain ⟨htime, hne, -⟩ := h.set t (htimeout.symm.trans ht)
    have hput : (s.next (now, call)).manager.timeoutTime = now + t * WalletManager.second := by
      rw [next, hsteady.timeoutTime, WalletManager.putOff, if_neg hne, htime]
    exact ⟨hsteady.timeout.trans htime, hput ▸ (hmax t ht).ne, now, rfl, hput.le⟩
  · intro name hname
    obtain ⟨hready, hunlocks⟩ := h.ready_next hnow hname
    exact .inl ((hsteady.quiet name hready).2.resolve_right hunlocks)
  · intro name hkeysOf howed
    exact (hsteady.quiet name (h.ready hnow howed)).1 hkeysOf

theorem Session.Inv.next_passive (h : s.Inv) (hrange : InRange s (now, call))
    (hpassive : Passive s.manager (s.manager.call now call))
    (htimeout : call.timeout s.timeout = s.timeout) :
    (s.next (now, call)).Inv ∧ LeavesIdle s (now, call) := by
  obtain ⟨hnow, -⟩ := hrange
  refine ⟨{ unset := ?_, set := ?_, owed := ?_ }, ?_⟩
  · intro hnone
    exact hpassive.timeoutTime.trans (h.unset (htimeout.symm.trans hnone))
  · intro t ht
    obtain ⟨htime, hne, l, hl, hle⟩ := h.set t (htimeout.symm.trans ht)
    refine ⟨hpassive.timeout.trans htime, hpassive.timeoutTime.trans_ne hne, now, rfl, ?_⟩
    exact hpassive.timeoutTime.trans_le (hle.trans (add_le_add_left (hnow l hl) _))
  · intro name hname
    obtain ⟨hlocked | ⟨hdue, hsome⟩, -⟩ := h.ready_next hnow hname
    · exact .inl (hpassive.locked name hlocked)
    · refine .inr ⟨⟨now, rfl, ?_⟩, hpassive.present name hsome⟩
      exact ⟨hpassive.timeoutTime.trans_ne hdue.1, hpassive.timeoutTime.trans_le hdue.2⟩
  · intro name hkeysOf
    rw [hpassive.keysOf] at hkeysOf
    cases hkeysOf

theorem Session.Inv.next_setTimeout (h : s.Inv) {t : ℤ}
    (hrange : InRange s (now, .setTimeout t)) (htime : SetInTime s (now, .setTimeout t)) :
    (s.next (now, .setTimeout t)).Inv ∧ LeavesIdle s (now, .setTimeout t) := by
  obtain ⟨hnow, hmax⟩ := hrange
  refine ⟨{ unset := ?_, set := ?_, owed := ?_ }, ?_⟩
  · intro hnone
    cases hnone
  · intro t' ht'
    cases ht'
    exact ⟨rfl, (hmax t rfl).ne, now, rfl, le_refl _⟩
  · intro name hname
    refine .inl ?_
    obtain ⟨hlocked | ⟨hdue, hsome⟩, -⟩ := h.ready_next hnow hname
    · exact hlocked
    · obtain ⟨w, hw⟩ := Option.isSome_iff_exists.mp hsome
      obtain hearly | hall := htime t rfl
      · exact absurd hdue hearly
      · exact ⟨w, hw, hall name w hw⟩
  · intro name hkeysOf
    cases hkeysOf

/-- A step of the run keeps the invariant, and works with no wallet that is owed. -/
theorem Session.Inv.next (h : s.Inv) (hrange : InRange s (now, call))
    (htime : SetInTime s (now, call)) :
    (s.next (now, call)).Inv ∧ LeavesIdle s (now, call) := by
  by_cases hset : ∃ t, call = .setTimeout t
  · obtain ⟨t, rfl⟩ := hset
    exact h.next_setTimeout hrange htime
  have hset : ∀ t, call ≠ .setTimeout t := not_exists.mp hset
  have htimeout : call.timeout s.timeout = s.timeout := by
    cases call with
    | setTimeout t => exact absurd rfl (hset t)
    | _ => rfl
  by_cases htests : call.tests
  · exact h.next_tests hrange htests htimeout
  · exact h.next_passive hrange (passive_call s.manager now htests hset) htimeout

end Step

/-- In a run in which `set_timeout` is called before the deadline or with all wallets locked, no
call works with the keys of a wallet that was unlocked before a pause of the length of the
timeout and has not been unlocked since. -/
theorem idle_wallets_locked (wallets : Wallets c d) (dir : String) (files : Files)
    (calls : List (ℤ × Call c d))
    (hrange : Along step (fun s e _ => InRange s e) (Session.start wallets dir files) calls)
    (htime : Along step (fun s e _ => SetInTime s e) (Session.start wallets dir files) calls) :
    Along step (fun s e _ => LeavesIdle s e) (Session.start wallets dir files) calls := by
  refine Along.of_invariant (fun s e s' hs hstep hP => ?_) (hrange.and htime)
    (Session.Inv.start wallets dir files)
  cases Except.ok.inj hstep
  exact hs.next hP.1 hP.2

/-- No devices at all. -/
def noDevices (c : Primitives) : Devices c where
  State := Empty
  isLocked := Empty.elim
  lock := Empty.elim
  unlock s _ := s.elim
  checkPassword s _ := s.elim
  listKeys := Empty.elim
  listPublicKeys := Empty.elim
  importKey s _ := s.elim
  removeKey s _ := s.elim
  createKey s _ := s.elim
  trySignDigest s _ _ := s.elim
  lock_locks s := s.elim
  unlock_throws s := s.elim

instance (s : Session c d) (e : ℤ × Call c d) : Decidable (InRange s e) :=
  inferInstanceAs (Decidable (_ ∧ _))

instance (s : Session c d) (e : ℤ × Call c d) : Decidable (LeavesIdle s e) :=
  inferInstanceAs (Decidable (∀ name ∈ _, _))

/-- A wallet is created, and the timeout of ten seconds is set after one second, and again
after a minute or not; then its keys are asked for. -/
def aMinute (again : Bool) : List (ℤ × Call bytePrimitives (noDevices bytePrimitives)) :=
  [(0, .create "w" ⟨2, by decide⟩ .takesAll), (1000000000, .setTimeout 10)] ++
    (if again then [(60000000000, .setTimeout 10)] else []) ++
    [(61000000000, .listKeys "w" "PWkk")]

theorem idle_wallets_locked_aMinute :
    Along step (fun s e _ => LeavesIdle s e)
      (Session.start .empty "." fun _ => none) (aMinute false) :=
  idle_wallets_locked .empty "." (fun _ => none) (aMinute false) (by decide)
    ⟨fun _ _ _ h => (by cases h), fun _ _ _ _ => .inl fun hdue => hdue.1 (by decide),
      fun _ _ _ h => (by cases h), trivial⟩

theorem idle_wallets_locked_fails :
    ¬ ∀ (c : Primitives) (d : Devices c) (wallets : Wallets c d) (dir : String) (files : Files)
      (calls : List (ℤ × Call c d)),
      Along step (fun s e _ => InRange s e) (Session.start wallets dir files) calls →
        Along step (fun s e _ => LeavesIdle s e) (Session.start wallets dir files) calls := by
  intro hall
  have h := hall bytePrimitives (noDevices bytePrimitives) .empty "." (fun _ => none) (aMinute true)
    (by decide)
  exact absurd h (by decide)

end Xidata.Wallet
