import ModemLink.Time.Retry

namespace ModemLink

structure Settings where
  retry : Retry
  responseTimeout : Duration
  notificationTimeout : Duration
  writeTimeout : Duration
  bootTimeout : Duration
  resetTime : Duration
  baudRate : UInt32
  deriving DecidableEq

def Settings.standard : Settings where
  retry := .standard
  responseTimeout := .ofSeconds 5
  notificationTimeout := .ofSeconds 5
  writeTimeout := .ofSeconds 1
  bootTimeout := .ofSeconds 10
  resetTime := .ofMillis 10
  baudRate := 115200

end ModemLink
