/-
What a configuration file says (`conf.h`, the settings of `server.h`).

`conf_parse` is a parameter of what follows: a file gives a `Conf`, or an
error. The commands of a server set the fields of `ServerConf`, the others
those of `Conf`; a path is what was written in the file.
-/
import Mathlib.Tactic.Common

namespace OliveHc

/-- The settings of a server, as its commands and `default_server` leave
them. -/
structure ServerConf where
  listenPort : Nat
  capacity : Nat
  accessLog : String
  connectionsLimit : Nat
  rcvbuf : Nat
  sndbuf : Nat
  recvTimeout : Nat
  requestTimeout : Nat
  sendTimeout : Nat
  expireDefault : Int
  expireForce : Int
  keepaliveTimeout : Nat
  itemMaxSize : Nat
  keyIncludeHost : Bool
  keyIncludeOhcKey : Bool
  keyIncludeQuery : Bool
  serverDump : Bool
  shutdownIfNotStore : Bool
  passbyEnable : Bool
  passbyBeginItemNr : Int
  passbyBeginConsumed : Nat
  passbyLimitNr : Int
  passbyExpire : Int
  statusPeriod : Nat
deriving DecidableEq, Repr

/-- `default_server`, listening on a port. -/
def ServerConf.default (listenPort : Nat) : ServerConf where
  listenPort
  capacity := 0
  accessLog := "access.log"
  connectionsLimit := 1000
  rcvbuf := 0
  sndbuf := 0
  recvTimeout := 60
  requestTimeout := 60
  sendTimeout := 60
  expireDefault := 259200
  expireForce := 0
  keepaliveTimeout := 60
  itemMaxSize := 104857600
  keyIncludeHost := false
  keyIncludeOhcKey := false
  keyIncludeQuery := false
  serverDump := true
  shutdownIfNotStore := false
  passbyEnable := false
  passbyBeginItemNr := 1000000
  passbyBeginConsumed := 107374182400
  passbyLimitNr := 1000000
  passbyExpire := 3600
  statusPeriod := 60

/-- `conf_cycle`: the global settings, the servers and the files of the
devices in the order of the configuration file. -/
structure Conf where
  threads : Nat
  quitTimeout : Nat
  badblockPercent : Int
  check270G : Bool
  errorLog : String
  servers : List ServerConf
  devices : List String
deriving DecidableEq, Repr

/-- What `conf_parse` starts from. -/
def Conf.default : Conf where
  threads := 4
  quitTimeout := 60
  badblockPercent := 1
  check270G := true
  errorLog := "error.log"
  servers := []
  devices := []

end OliveHc
