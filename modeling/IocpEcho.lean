import IocpEcho.Frames
import IocpEcho.Drain
import IocpEcho.Greeting
import IocpEcho.Shutdown
import IocpEcho.Atomic
import IocpEcho.Lifetime
import IocpEcho.Completions
import IocpEcho.Overlapped
import IocpEcho.BuffereventAsync
import IocpEcho.LoopRuns
