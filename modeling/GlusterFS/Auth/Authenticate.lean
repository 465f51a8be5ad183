import Mathlib.Algebra.Ring.Int.Defs
import Mathlib.Data.List.Basic

/-!
# Authentication of a client

Each module that is loaded says of a client that it accepts it, that it rejects it, or that it
does not care.  One rejection is enough to turn the client away, and so is the lack of an
acceptance.

The module `addr` asks for the address, in a list of patterns to reject and then in one to
allow.  Before it looks at either it checks the port: of a client on a port that is not
privileged it says that it does not care, whatever its address.  Then the module `login` decides
alone.
-/

namespace GlusterFS.Auth

open List

section

abbrev Text := List Char

inductive AuthResult where
  | accept
  | reject
  | dontCare
deriving DecidableEq

inductive Family where
  | inetSdp
  | inet
  | inet6
  | unix
  | other (saFamily : Nat)

def Family.isInet : Family → Bool
  | .inetSdp => true
  | .inet => true
  | .inet6 => true
  | .unix => false
  | .other _ => false

/-- The identifier of a client on the network is its address, a colon and its port. -/
structure PeerInfo where
  family : Family
  identifier : Text
  colon : family.isInet = true → ':' ∈ identifier

/--
The options `auth.addr.<volume>.allow`, `auth.addr.<volume>.reject`, `auth.ip.<volume>.allow`,
`auth.login.<volume>.allow` and `auth.login.<user>.password`.
-/
inductive OptionKey where
  | addrAllow (volume : Text)
  | addrReject (volume : Text)
  | ipAllow (volume : Text)
  | loginAllow (volume : Text)
  | loginPassword (user : Text)

abbrev Config := OptionKey → Option Text

structure Input where
  remoteSubvolume : Option Text
  peerInfo : Option PeerInfo
  username : Option Text
  password : Option Text

def tokens (list : Text) : List Text :=
  (list.splitOnP (fun c => c = ' ' || c = ',')).filter (fun token => token ≠ [])

def beforeColon (identifier : Text) : Text :=
  ((identifier.reverse.dropWhile (fun c => c ≠ ':')).drop 1).reverse

def afterColon (identifier : Text) : Text :=
  (identifier.reverse.takeWhile (fun c => c ≠ ':')).reverse

def atoi (s : Text) : Int :=
  let digits := fun s : Text =>
    (s.takeWhile Char.isDigit).foldl (fun n c => n * 10 + (c.toNat - '0'.toNat)) 0
  match s.dropWhile Char.isWhitespace with
  | '-' :: s => -(digits s : Int)
  | '+' :: s => digits s
  | s => digits s

def peerAddr (info : PeerInfo) : Text :=
  if info.family.isInet then beforeColon info.identifier else info.identifier

def peerPort (info : PeerInfo) : Nat :=
  (atoi (afterColon info.identifier) % 2 ^ 16).toNat

variable (fnmatch : Text → Text → Bool)

/-- A pattern of a list of addresses; one with an exclamation mark is negated. -/
def addrMatches (addr : Text) : Text → Bool
  | '!' :: pattern => !fnmatch pattern addr
  | pattern => fnmatch pattern addr

/-- The lists of the module `addr`, for an address that has passed the other checks. -/
def addrLists (reject allow : Option Text) (addr : Text) : AuthResult :=
  if (reject.map tokens).any (fun list => list.any (addrMatches fnmatch addr)) then
    .reject
  else if (allow.map tokens).any (fun list => list.any (addrMatches fnmatch addr)) then
    .accept
  else
    .dontCare

def addrGfAuth (input : Input) (config : Config) : AuthResult :=
  match input.remoteSubvolume with
  | none => .dontCare
  | some name =>
    let allow := (config (.addrAllow name)).orElse (fun _ => config (.ipAllow name))
    let reject := config (.addrReject name)
    if allow = none ∧ reject = none then
      .dontCare
    else
      match input.peerInfo with
      | none => .dontCare
      | some info =>
        match info.family with
        | .other _ => .dontCare
        | .unix => addrLists fnmatch reject allow (peerAddr info)
        | .inet | .inet6 | .inetSdp =>
          if 1024 ≤ peerPort info then
            .dontCare
          else
            addrLists fnmatch reject allow (peerAddr info)

def loginGfAuth (input : Input) (config : Config) : AuthResult :=
  match input.username, input.password, input.remoteSubvolume with
  | none, _, _ => .dontCare
  | some _, none, _ => .dontCare
  | some _, some _, none => .reject
  | some username, some password, some brickName =>
    match config (.loginAllow brickName) with
    | none => .dontCare
    | some list =>
      if (tokens list).any (fun pattern => fnmatch pattern username) then
        match config (.loginPassword username) with
        | none => .reject
        | some passwd => if passwd = password then .accept else .reject
      else
        .dontCare

inductive AuthModule where
  | addr
  | login
deriving DecidableEq

def authenticate (input : Input) (config : Config) : AuthModule → AuthResult
  | .addr => addrGfAuth fnmatch input config
  | .login => loginGfAuth fnmatch input config

def reduce : AuthResult → AuthResult → AuthResult
  | .dontCare, .accept => .accept
  | res, .accept => res
  | _, .reject => .reject
  | res, .dontCare => res

/-- A client that no module is interested in is turned away. -/
def verdict : AuthResult → AuthResult
  | .accept => .accept
  | .reject => .reject
  | .dontCare => .reject

def gfAuthenticate (input : Input) (config : Config) (authModules : List AuthModule) : AuthResult :=
  verdict ((authModules.map (authenticate fnmatch input config)).reverse.foldl reduce .dontCare)

end

theorem foldl_reduce_eq_reject_iff (results : List AuthResult) (res : AuthResult) :
    results.foldl reduce res = .reject ↔ res = .reject ∨ .reject ∈ results := by
  induction results generalizing res with
  | nil => simp
  | cons result results ih =>
    rw [foldl_cons, ih, mem_cons]
    cases res <;> cases result <;> simp [reduce]

theorem foldl_reduce_eq_dontCare_iff (results : List AuthResult) (res : AuthResult) :
    results.foldl reduce res = .dontCare ↔
      res = .dontCare ∧ ∀ result ∈ results, result = .dontCare := by
  induction results generalizing res with
  | nil => simp
  | cons result results ih =>
    rw [foldl_cons, ih, forall_mem_cons]
    cases res <;> cases result <;> simp [reduce]

variable {fnmatch : Text → Text → Bool} {input : Input} {config : Config}
variable {authModules : List AuthModule}

theorem gfAuthenticate_eq_reject_iff_modules :
    gfAuthenticate fnmatch input config authModules = .reject ↔
      (∃ m ∈ authModules, authenticate fnmatch input config m = .reject) ∨
        ∀ m ∈ authModules, authenticate fnmatch input config m ≠ .accept := by
  have hverdict : ∀ res, verdict res = .reject ↔ res = .reject ∨ res = .dontCare := by
    intro res
    cases res <;> simp [verdict]
  have hcares : ∀ res : AuthResult, res ≠ .reject → (res = .dontCare ↔ res ≠ .accept) := by
    intro res
    cases res <;> simp
  rw [gfAuthenticate, hverdict, foldl_reduce_eq_reject_iff, foldl_reduce_eq_dontCare_iff]
  simp only [mem_reverse, mem_map, forall_exists_index, and_imp,
    forall_apply_eq_imp_iff₂, reduceCtorEq, false_or, true_and]
  by_cases hrej : ∃ m ∈ authModules, authenticate fnmatch input config m = .reject
  · simp [hrej]
  · rw [or_iff_right hrej, or_iff_right hrej]
    refine forall₂_congr ?_
    intro m hm
    exact hcares _ (fun heq => hrej ⟨m, hm, heq⟩)

def Heard (info : PeerInfo) : Prop :=
  match info.family with
  | .other _ => False
  | .unix => True
  | .inet | .inet6 | .inetSdp => peerPort info < 1024

instance decidableHeard (info : PeerInfo) : Decidable (Heard info) :=
  match h : info.family with
  | .other _ => isFalse (by simp [Heard, h])
  | .unix => isTrue (by simp [Heard, h])
  | .inet => decidable_of_iff (peerPort info < 1024) (by simp [Heard, h])
  | .inet6 => decidable_of_iff (peerPort info < 1024) (by simp [Heard, h])
  | .inetSdp => decidable_of_iff (peerPort info < 1024) (by simp [Heard, h])

/-- The address of the client matches a pattern of the list to reject. -/
structure Rejected (fnmatch : Text → Text → Bool) (input : Input) (config : Config) (volume : Text)
    (info : PeerInfo) : Prop where
  subvolume : input.remoteSubvolume = some volume
  peer : input.peerInfo = some info
  listed : ∃ list, config (.addrReject volume) = some list ∧
    ∃ pattern ∈ tokens list, addrMatches fnmatch (peerAddr info) pattern = true

variable {volume : Text} {info : PeerInfo}

theorem addrLists_eq_reject (h : Rejected fnmatch input config volume info) (allow : Option Text) :
    addrLists fnmatch (config (.addrReject volume)) allow (peerAddr info) = .reject := by
  obtain ⟨list, hlist, pattern, hmem, hmatch⟩ := h.listed
  have hany : (tokens list).any (addrMatches fnmatch (peerAddr info)) = true :=
    any_eq_true.mpr ⟨pattern, hmem, hmatch⟩
  rw [addrLists, hlist, if_pos]
  simpa using hany

theorem addrGfAuth_of_rejected (h : Rejected fnmatch input config volume info) :
    addrGfAuth fnmatch input config = if Heard info then .reject else .dontCare := by
  have hrej : config (.addrReject volume) ≠ none := by
    obtain ⟨list, hlist, _⟩ := h.listed
    simp [hlist]
  have hlists := addrLists_eq_reject h
  simp only [addrGfAuth, h.subvolume, h.peer, hrej]
  cases hfam : info.family with
  | other saFamily => simp [Heard, hfam]
  | unix => simp [Heard, hfam, hlists]
  | inet | inet6 | inetSdp =>
    by_cases hport : peerPort info < 1024
    · simp [Heard, hfam, hlists, hport]
    · simp [Heard, hfam, hport]

/--
**A rejected address.**  A client whose address matches a pattern to reject is turned away
exactly when the module `addr` is loaded and looks at its address, or the module `login` does not
let it in.
-/
theorem gfAuthenticate_eq_reject_iff
    (fnmatch : Text → Text → Bool) (input : Input) (config : Config)
    (authModules : List AuthModule) (volume : Text) (info : PeerInfo)
    (h : Rejected fnmatch input config volume info) :
    gfAuthenticate fnmatch input config authModules = .reject ↔ .addr ∈ authModules ∧ Heard info ∨
        ¬ (.login ∈ authModules ∧ loginGfAuth fnmatch input config = .accept) := by
  have haddr := addrGfAuth_of_rejected h
  rw [gfAuthenticate_eq_reject_iff_modules]
  constructor
  · rintro (⟨m, hm, hrej⟩ | hnone)
    · cases m with
      | addr =>
        rw [authenticate, haddr] at hrej
        split at hrej
        · exact .inl ⟨hm, ‹_›⟩
        · cases hrej
      | login =>
        right
        rintro ⟨_, hacc⟩
        simp [authenticate, hacc] at hrej
    · right
      rintro ⟨hm, hacc⟩
      exact hnone .login hm hacc
  · rintro (⟨hm, hheard⟩ | hlogin)
    · refine .inl ⟨.addr, hm, ?_⟩
      rw [authenticate, haddr, if_pos hheard]
    · right
      intro m hm hacc
      cases m with
      | addr =>
        rw [authenticate, haddr] at hacc
        split at hacc
        · cases hacc
        · cases hacc
      | login => exact hlogin ⟨hm, hacc⟩

def keptOut : Config
  | .addrReject ['v'] => some ['h']
  | .loginAllow ['v'] => some ['u']
  | .loginPassword ['u'] => some ['p']
  | _ => none

def fromPort (port : Text) : Input where
  remoteSubvolume := some ['v']
  peerInfo := some ⟨.inet, 'h' :: ':' :: port, by simp⟩
  username := some ['u']
  password := some ['p']

theorem gfAuthenticate_privileged :
    gfAuthenticate (fun pattern s => pattern = s) (fromPort ['9', '9', '9']) keptOut
      [.addr, .login] = .reject := by
  refine (gfAuthenticate_eq_reject_iff _ _ _ _ ['v']
    ⟨.inet, ['h', ':', '9', '9', '9'], by simp⟩ ⟨rfl, rfl, ['h'], rfl, ['h'], ?_, ?_⟩).mpr ?_
  · decide
  · decide
  · exact .inl ⟨by decide, by decide⟩

theorem gfAuthenticate_unprivileged :
    Rejected (fun pattern s => pattern = s) (fromPort ['1', '0', '2', '4']) keptOut ['v']
        ⟨.inet, ['h', ':', '1', '0', '2', '4'], by simp⟩ ∧
      gfAuthenticate (fun pattern s => pattern = s) (fromPort ['1', '0', '2', '4']) keptOut
        [.addr, .login] = .accept := by
  refine ⟨⟨rfl, rfl, ['h'], rfl, ['h'], ?_, ?_⟩, ?_⟩
  · decide
  · decide
  · decide

/-- A client is let in when some module lets it in and none turns it away, in whatever order. -/
theorem gfAuthenticate_eq_accept_iff (fnmatch : Text → Text → Bool) (input : Input)
    (config : Config) (authModules : List AuthModule) :
    gfAuthenticate fnmatch input config authModules = .accept ↔
      (∃ m ∈ authModules, authenticate fnmatch input config m = .accept) ∧
        ∀ m ∈ authModules, authenticate fnmatch input config m ≠ .reject := by
  have hverdict : ∀ res, verdict res = .accept ↔ verdict res ≠ .reject := by
    intro res
    cases res <;> simp [verdict]
  rw [gfAuthenticate, hverdict, ← gfAuthenticate, ne_eq, gfAuthenticate_eq_reject_iff_modules]
  push Not
  exact and_comm

end GlusterFS.Auth
